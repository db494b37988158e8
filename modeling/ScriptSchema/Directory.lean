import ScriptSchema.Entries

/-!
# Directories

A directory holds one entry per name and lists the names in order, by code points, whatever the
order in which they were added.

* `Directory`, `Directory.add`, `Directory.find?`, `Directory.names`;
* **`find?_add`**: what adding changes.
-/

namespace ScriptSchema

/-- Entries in strictly increasing order of their keys. -/
structure Directory (α : Type u) where
  entries : Entries α
  sorted : entries.keys.Pairwise (· < ·)

namespace Directory

variable {α : Type u}

/-- No entries. -/
def empty : Directory α := ⟨[], .nil⟩

instance : EmptyCollection (Directory α) := ⟨empty⟩

/-- Writes `a` under `key`, at its place among the sorted keys. -/
def place (key : String) (a : α) : Entries α → Entries α
  | [] => [(key, a)]
  | (k, b) :: es =>
    if key < k then (key, a) :: (k, b) :: es
    else if key = k then (key, a) :: es
    else (k, b) :: place key a es

theorem mem_keys_place {key k : String} {a : α} {es : Entries α} (h : k ∈ (place key a es).keys) :
    k = key ∨ k ∈ es.keys := by
  induction es with
  | nil => exact .inl (List.mem_singleton.1 h)
  | cons e es ih =>
    obtain ⟨k', b⟩ := e
    unfold place at h
    split at h
    · exact (List.mem_cons.1 h).imp_right id
    · split at h
      · exact (List.mem_cons.1 h).imp_right (List.mem_cons_of_mem _)
      · rcases List.mem_cons.1 h with rfl | h
        · exact .inr List.mem_cons_self
        · exact (ih h).imp_right (List.mem_cons_of_mem _)

theorem sorted_place (key : String) (a : α) {es : Entries α} (h : es.keys.Pairwise (· < ·)) :
    (place key a es).keys.Pairwise (· < ·) := by
  induction es with
  | nil => exact List.pairwise_singleton _ _
  | cons e es ih =>
    obtain ⟨k, b⟩ := e
    have ⟨hk, hes⟩ := List.pairwise_cons.1 h
    unfold place
    split
    · rename_i hlt
      refine List.pairwise_cons.2 ⟨fun x hx => ?_, h⟩
      rcases List.mem_cons.1 hx with rfl | hx
      · exact hlt
      · exact String.lt_trans hlt (hk x hx)
    · split
      · rename_i heq
        subst heq
        exact h
      · rename_i hlt hne
        refine List.pairwise_cons.2 ⟨fun x hx => ?_, ih hes⟩
        rcases mem_keys_place hx with rfl | hx
        · exact Std.lt_of_le_of_ne (String.not_lt.1 hlt) (Ne.symm hne)
        · exact hk x hx

/-- Writes `a` under `key`, over what was there. -/
def add (d : Directory α) (key : String) (a : α) : Directory α :=
  ⟨place key a d.entries, sorted_place key a d.sorted⟩

/-- The entry under a name. -/
def find? (d : Directory α) (key : String) : Option α := d.entries.lookup key

/-- The names, in order. -/
def names (d : Directory α) : List String := d.entries.keys

theorem mem_names {d : Directory α} {key : String} {a : α} (h : d.find? key = some a) :
    key ∈ d.names :=
  (Entries.has_iff d.entries key).1 (Option.isSome_of_eq_some h)

/-- **Adding changes the entry under its key and no other.** -/
theorem find?_add (d : Directory α) (key k : String) (a : α) :
    (d.add key a).find? k = if k = key then some a else d.find? k := by
  suffices ∀ es : Entries α,
      (place key a es).lookup k = if k = key then some a else es.lookup k from this d.entries
  intro es
  induction es with
  | nil =>
    by_cases h : k = key
    · simp [place, h]
    · simp [place, List.lookup_cons, beq_eq_false_iff_ne.2 h, h]
  | cons e es ih =>
    obtain ⟨k', b⟩ := e
    unfold place
    split
    · by_cases h : k = key
      · simp [h]
      · simp [List.lookup_cons, beq_eq_false_iff_ne.2 h, h]
    · split
      · rename_i heq
        subst heq
        by_cases h : k = key
        · simp [h]
        · simp [List.lookup_cons, beq_eq_false_iff_ne.2 h, h]
      · rename_i hne
        by_cases h : k = k'
        · subst h; simp [Ne.symm hne]
        · simp only [List.lookup_cons, beq_eq_false_iff_ne.2 h, ih]

end Directory

end ScriptSchema
