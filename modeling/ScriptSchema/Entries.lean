/-!
# Ordered entries

Objects, field lists and scratch spaces are rows of keyed entries in which every key occurs once and
the order counts. Looking up is `List.lookup`; the other operations are here.

* `Entries.keys`, `Entries.Distinct`;
* `Entries.put`: writes under a key that is there already, or adds the key at the end;
* `Entries.delete`, `Entries.swapDelete`: the two ways to close the gap;
* `Entries.overlay`, `Entries.ofPairs`: many `put`s;
* `has_iff`: a key is found if it is one of the keys;
* **`lookup_put`**, `keys_put`, `put_eq`, `put_eq_append`, `Distinct.put`: what writing does.
-/

namespace ScriptSchema

/-- Entries under keys, in order. -/
abbrev Entries (α : Type u) := List (String × α)

namespace Entries

variable {α : Type u}

/-- The keys, in order. -/
def keys (es : Entries α) : List String := es.map Prod.fst

/-- No key occurs twice. -/
def Distinct (es : Entries α) : Prop := es.keys.Nodup

instance (es : Entries α) : Decidable es.Distinct := inferInstanceAs (Decidable es.keys.Nodup)

/-- The key is there. -/
def has (es : Entries α) (key : String) : Bool := (es.lookup key).isSome

/-- Writes `a` under `key`: in place if the key is there, at the end if not. -/
def put (es : Entries α) (key : String) (a : α) : Entries α :=
  match es with
  | [] => [(key, a)]
  | (k, b) :: es => if k = key then (key, a) :: es else (k, b) :: put es key a

/-- Removes a key; the others keep their order. -/
def delete (es : Entries α) (key : String) : Entries α := es.eraseP fun e => e.1 == key

/-- Removes a key; the last entry takes its place. -/
def swapDelete (es : Entries α) (key : String) : Entries α :=
  match es with
  | [] => []
  | (k, b) :: es =>
    if k = key then
      match es.getLast? with
      | none => []
      | some e => e :: es.dropLast
    else (k, b) :: swapDelete es key

/-- Writes all of `upper` over `es`, one entry after the other. -/
def overlay (es upper : Entries α) : Entries α := upper.foldl (fun es e => es.put e.1 e.2) es

/-- The entries that writing the pairs one after the other leaves: a key stands where it came first
and holds what came last. -/
def ofPairs (pairs : List (String × α)) : Entries α := overlay [] pairs

theorem has_iff (es : Entries α) (key : String) : es.has key = true ↔ key ∈ es.keys := by
  unfold has
  induction es with
  | nil => simp [keys]
  | cons e es ih =>
    obtain ⟨k, b⟩ := e
    by_cases h : key = k
    · simp [keys, h]
    · simp only [List.lookup_cons, beq_eq_false_iff_ne.2 h, ih, keys, List.map_cons,
        List.mem_cons, h, false_or]

/-! ## What writing does -/

theorem lookup_put (es : Entries α) (key k : String) (a : α) :
    (es.put key a).lookup k = if k = key then some a else es.lookup k := by
  induction es with
  | nil =>
    by_cases h : k = key
    · simp [put, h]
    · simp [put, List.lookup_cons, beq_eq_false_iff_ne.2 h, h]
  | cons e es ih =>
    obtain ⟨k', b⟩ := e
    unfold put
    by_cases h' : k' = key
    · subst h'
      by_cases h : k = k'
      · simp [h]
      · simp [List.lookup_cons, beq_eq_false_iff_ne.2 h, h]
    · by_cases h : k = k'
      · subst h; simp [h']
      · simp only [h', if_false, List.lookup_cons, beq_eq_false_iff_ne.2 h, ih]

theorem keys_put (es : Entries α) (key : String) (a : α) :
    (es.put key a).keys = if key ∈ es.keys then es.keys else es.keys ++ [key] := by
  induction es with
  | nil => rfl
  | cons e es ih =>
    obtain ⟨k, b⟩ := e
    unfold put
    by_cases h : k = key
    · subst h; simp [keys]
    · have h' : ¬ key = k := fun e => h e.symm
      simp only [h, if_false]
      simp only [keys, List.map_cons, List.mem_cons, h', false_or] at ih ⊢
      rw [ih]
      by_cases hk : key ∈ es.map Prod.fst <;> simp [hk]

/-- Writing under a key that is there replaces what it holds. -/
theorem put_eq {es : Entries α} {key : String} {a : α} (h : es.lookup key = some a) (b : α) :
    ∃ before after, es = before ++ (key, a) :: after ∧
      es.put key b = before ++ (key, b) :: after := by
  induction es with
  | nil => nomatch h
  | cons e es ih =>
    obtain ⟨k, a'⟩ := e
    by_cases hk : key = k
    · subst hk
      rw [List.lookup_cons_self] at h
      obtain rfl := Option.some.inj h
      exact ⟨[], es, rfl, if_pos rfl⟩
    · rw [List.lookup_cons, beq_eq_false_iff_ne.2 hk] at h
      obtain ⟨before, after, rfl, hp⟩ := ih h
      refine ⟨(k, a') :: before, after, rfl, ?_⟩
      rw [put, if_neg fun h => hk h.symm, hp]
      rfl

/-- Writing under a key that is not there adds it at the end. -/
theorem put_eq_append {es : Entries α} {key : String} (h : es.lookup key = none) (a : α) :
    es.put key a = es ++ [(key, a)] := by
  induction es with
  | nil => rfl
  | cons e es ih =>
    obtain ⟨k, b⟩ := e
    by_cases hk : key = k
    · subst hk
      rw [List.lookup_cons_self] at h
      nomatch h
    · rw [List.lookup_cons, beq_eq_false_iff_ne.2 hk] at h
      rw [put, if_neg fun h => hk h.symm, ih h]
      rfl

theorem Distinct.put {es : Entries α} (h : es.Distinct) (key : String) (a : α) :
    (es.put key a).Distinct := by
  unfold Distinct at h ⊢
  rw [keys_put]
  split
  · exact h
  · rename_i hk
    refine List.nodup_append.2 ⟨h, by simp, ?_⟩
    rintro x hx y hy rfl
    exact hk (List.mem_singleton.1 hy ▸ hx)

theorem Distinct.overlay {es : Entries α} (h : es.Distinct) (upper : Entries α) :
    (es.overlay upper).Distinct := by
  unfold Entries.overlay
  induction upper generalizing es with
  | nil => exact h
  | cons e upper ih => exact ih (h.put e.1 e.2)

theorem distinct_ofPairs (pairs : List (String × α)) : (ofPairs pairs).Distinct :=
  Distinct.overlay (show Distinct ([] : Entries α) from List.nodup_nil) pairs

end Entries

end ScriptSchema
