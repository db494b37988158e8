import ScriptSchema.Visit.Basic

/-!
# Searches and walks, part by part

Validation looks at the parts of a value one after the other, and so does a walk. What the whole
finds and sees is read off from the parts here, once for all of them.

* `Search.both`, `Search.gather`: one search after the other;
* `gather_append`, `map_gather`: searches of parts of parts;
* **`gather_eq_nil_iff`**: nothing is found if no part finds anything;
* `Search.Completes`, `gather_completes_iff`: a search comes to its end if every part does;
* `Blameless`: the only fault that is met is an endless descent;
* `result_append`, `result_each`: walks as searches;
* `Trace.Holds`, `holds_append`, `holds_each`: a walk without an error, all of whose visits have a
  property;
* `Trace.Within`: a walk that sees some of what another does.
-/

namespace ScriptSchema

variable {α β : Type}

/-! ## Lists -/

theorem mem_of_lookup {es : Entries α} {key : String} {a : α} (h : es.lookup key = some a) :
    (key, a) ∈ es := by
  obtain ⟨before, after, rfl, _⟩ := List.lookup_eq_some_iff.1 h
  simp

theorem forall_mem_zipIdx {p : α → Prop} {as : List α} :
    (∀ m ∈ as.zipIdx, p m.1) ↔ ∀ a ∈ as, p a := by
  rw [← List.forall_mem_map (f := Prod.fst) (P := p), List.zipIdx_map_fst]

/-! ## Searches -/

/-- A search for problems: what it finds, or the fault of the schema that ends it. -/
abbrev Search (α : Type) : Type := Except SchemaFault (List α)

namespace Search

/-- What two searches find, one after the other. -/
def both (x y : Search α) : Search α :=
  Except.bind x fun here => Except.bind y fun rest => .ok (here ++ rest)

/-- What some searches find, one after the other. -/
def gather : List (Search α) → Search α
  | [] => .ok []
  | x :: xs => both x (gather xs)

/-- The search comes to its end. -/
def Completes (x : Search α) : Prop := ∃ as, x = .ok as

theorem both_assoc (x y z : Search α) : both (both x y) z = both x (both y z) := by
  rcases x with _ | as
  · rfl
  · rcases y with _ | bs
    · rfl
    · rcases z with _ | cs
      · rfl
      · exact congrArg Except.ok (List.append_assoc as bs cs)

theorem both_eq_nil_iff {x y : Search α} : both x y = .ok [] ↔ x = .ok [] ∧ y = .ok [] := by
  rcases x with _ | as
  · exact ⟨nofun, fun h => nomatch h.1⟩
  · rcases y with _ | bs
    · exact ⟨nofun, fun h => nomatch h.2⟩
    · change Except.ok (as ++ bs) = _ ↔ _
      simp only [Except.ok.injEq, List.append_eq_nil_iff]

theorem both_eq_ok_iff {x y : Search α} {cs : List α} :
    both x y = .ok cs ↔ ∃ as bs, x = .ok as ∧ y = .ok bs ∧ cs = as ++ bs := by
  constructor
  · intro h
    rcases x with _ | as
    · nomatch h
    · rcases y with _ | bs
      · nomatch h
      · exact ⟨as, bs, rfl, rfl, (Except.ok.inj h).symm⟩
  · rintro ⟨as, bs, rfl, rfl, rfl⟩
    rfl

/-- **Nothing is found if no part finds anything.** -/
theorem gather_eq_nil_iff {xs : List (Search α)} : gather xs = .ok [] ↔ ∀ x ∈ xs, x = .ok [] := by
  induction xs with
  | nil => simp [gather]
  | cons x xs ih => rw [gather, both_eq_nil_iff, ih, List.forall_mem_cons]

theorem gather_append (xs ys : List (Search α)) :
    gather (xs ++ ys) = both (gather xs) (gather ys) := by
  induction xs with
  | nil =>
    rw [List.nil_append, gather]
    rcases gather ys with _ | bs <;> rfl
  | cons x xs ih => rw [List.cons_append, gather, gather, ih, both_assoc]

theorem gather_singleton (x : Search α) : gather [x] = x := by
  rw [gather, gather]
  rcases x with _ | as
  · rfl
  · exact congrArg Except.ok (List.append_nil as)

theorem both_completes_iff {x y : Search α} :
    Completes (both x y) ↔ Completes x ∧ Completes y := by
  constructor
  · rintro ⟨cs, h⟩
    obtain ⟨as, bs, hx, hy, -⟩ := both_eq_ok_iff.1 h
    exact ⟨⟨as, hx⟩, ⟨bs, hy⟩⟩
  · rintro ⟨⟨as, rfl⟩, ⟨bs, rfl⟩⟩
    exact ⟨as ++ bs, rfl⟩

theorem map_completes_iff {f : List α → List β} {x : Search α} :
    Completes (x.map f) ↔ Completes x := by
  rcases x with _ | as
  · constructor <;> rintro ⟨_, ⟨⟩⟩
  · exact ⟨fun _ => ⟨_, rfl⟩, fun _ => ⟨_, rfl⟩⟩

/-- A search comes to its end if every part does. -/
theorem gather_completes_iff {xs : List (Search α)} :
    Completes (gather xs) ↔ ∀ x ∈ xs, Completes x := by
  induction xs with
  | nil => simp [gather, Completes]
  | cons x xs ih => rw [gather, both_completes_iff, ih, List.forall_mem_cons]

/-- What is said of the finds of all parts is said of those of each. -/
theorem map_gather (f : α → β) (xs : List (Search α)) :
    (gather xs).map (List.map f) = gather (xs.map (Except.map (List.map f))) := by
  induction xs with
  | nil => rfl
  | cons x xs ih =>
    rw [List.map_cons, gather, gather, ← ih]
    rcases x with _ | as
    · rfl
    rcases gather xs with _ | bs
    · rfl
    · exact congrArg Except.ok List.map_append

/-- Searches of the members of a list, with the finds joined at the end. -/
theorem mapM_flatten_eq (f : β → Search α) (bs : List β) :
    (bs.mapM (m := Except SchemaFault) f).map List.flatten = gather (bs.map f) := by
  induction bs with
  | nil => rfl
  | cons b bs ih =>
    rw [List.map_cons, gather, ← ih, List.mapM_cons]
    rcases f b with _ | as
    · rfl
    · change Except.map _ (Except.bind _ _) = _
      rcases bs.mapM (m := Except SchemaFault) f with _ | found <;> rfl

end Search

/-! ## Faults that a sound schema does not have -/

/-- The only fault that is met is an endless descent: the schema names no unknown component, and no
enum without options. -/
def Blameless (x : Except SchemaFault α) : Prop := ∀ e, x = .error e → ∃ kind, e = .circular kind

namespace Blameless

theorem ok (a : α) : Blameless (.ok a) := nofun

theorem circular (kind : String) : Blameless (α := α) (.error (.circular kind)) := by
  rintro e ⟨⟩
  exact ⟨kind, rfl⟩

theorem map {x : Except SchemaFault α} (h : Blameless x) (f : α → β) : Blameless (x.map f) := by
  rcases x with e | a
  · rintro _ ⟨⟩
    exact h e rfl
  · exact ok (f a)

theorem bind {x : Except SchemaFault α} {f : α → Except SchemaFault β} (hx : Blameless x)
    (hf : ∀ a, x = .ok a → Blameless (f a)) : Blameless (Except.bind x f) := by
  rcases x with e | a
  · rintro _ ⟨⟩
    exact hx e rfl
  · exact hf a rfl

theorem both {x y : Search α} (hx : Blameless x) (hy : Blameless y) :
    Blameless (Search.both x y) :=
  hx.bind fun _ _ => hy.bind fun _ _ => ok _

theorem gather {xs : List (Search α)} (h : ∀ x ∈ xs, Blameless x) :
    Blameless (Search.gather xs) := by
  induction xs with
  | nil => exact ok []
  | cons x xs ih =>
    rw [List.forall_mem_cons] at h
    exact h.1.both (ih h.2)

/-- A search that meets no fault but an endless descent, and not that either, comes to its end. -/
theorem completes {x : Search α} (h : Blameless x) (hx : ∀ kind, x ≠ .error (.circular kind)) :
    x.Completes := by
  rcases x with e | as
  · obtain ⟨kind, rfl⟩ := h e rfl
    exact absurd rfl (hx kind)
  · exact ⟨as, rfl⟩

end Blameless

/-! ## Walks -/

namespace Trace

variable {p : α → Prop}

/-- The walk meets no error, and every visit has the property. -/
def Holds (p : α → Prop) (t : Trace α) : Prop := t.error = none ∧ ∀ a ∈ t.seen, p a

theorem holds_nil : Holds p nil := ⟨rfl, by simp [nil]⟩

theorem holds_ofList {as : List α} : Holds p (ofList as) ↔ ∀ a ∈ as, p a :=
  ⟨fun h => h.2, fun h => ⟨rfl, h⟩⟩

theorem holds_append {t u : Trace α} : Holds p (t ++ u) ↔ Holds p t ∧ Holds p u := by
  unfold Holds
  cases ht : t.error with
  | none =>
    rw [append_of_none ht]
    simp only [List.forall_mem_append, true_and, and_left_comm]
  | some e =>
    rw [append_of_some ht, ht]
    simp

theorem holds_each {f : β → Trace α} {bs : List β} :
    Holds p (each f bs) ↔ ∀ b ∈ bs, Holds p (f b) := by
  induction bs with
  | nil => simp [each, holds_nil]
  | cons b bs ih => rw [each, holds_append, ih, List.forall_mem_cons]

theorem holds_map {f : β → α} {t : Trace β} : Holds p (t.map f) ↔ Holds (fun b => p (f b)) t := by
  simp [Holds, map]

theorem map_each {γ : Type} (f : β → Trace α) (g : α → γ) (bs : List β) :
    (each f bs).map g = each (fun b => (f b).map g) bs := by
  induction bs with
  | nil => rfl
  | cons b bs ih => rw [each, each, map_append, ih]

theorem each_map {γ : Type} (f : β → Trace α) (g : γ → β) (cs : List γ) :
    each f (cs.map g) = each (fun c => f (g c)) cs := by
  induction cs with
  | nil => rfl
  | cons c cs ih => rw [List.map_cons, each, each, ih]

theorem each_congr {f g : β → Trace α} {bs : List β} (h : ∀ b ∈ bs, f b = g b) :
    each f bs = each g bs := by
  induction bs with
  | nil => rfl
  | cons b bs ih =>
    rw [List.forall_mem_cons] at h
    rw [each, each, h.1, ih h.2]

theorem result_map (f : α → β) (t : Trace α) : (t.map f).result = t.result.map (List.map f) := by
  obtain ⟨seen, _ | e⟩ := t <;> rfl

theorem result_append (t u : Trace α) : (t ++ u).result = Search.both t.result u.result := by
  obtain ⟨seen, _ | e⟩ := t
  · obtain ⟨rest, _ | e⟩ := u <;> rfl
  · rfl

theorem result_each (f : β → Trace α) (bs : List β) :
    (each f bs).result = Search.gather (bs.map fun b => (f b).result) := by
  induction bs with
  | nil => rfl
  | cons b bs ih => rw [each, result_append, ih, List.map_cons, Search.gather]

/-- Of two walks, the first sees some of what the second does, and meets an error only if that meets
one. -/
def Within (t u : Trace α) : Prop := u.error = none → t.error = none ∧ t.seen.Sublist u.seen

namespace Within

theorem refl (t : Trace α) : Within t t := fun h => ⟨h, List.Sublist.refl _⟩

theorem append {t t' u u' : Trace α} (ht : Within t t') (hu : Within u u') :
    Within (t ++ u) (t' ++ u') := by
  intro h
  rcases he : t'.error with _ | e
  · rw [append_of_none he] at h ⊢
    obtain ⟨ht, hts⟩ := ht he
    obtain ⟨hu, hus⟩ := hu h
    rw [append_of_none ht]
    exact ⟨hu, hts.append hus⟩
  · rw [append_of_some he, he] at h
    nomatch h

theorem nil (t : Trace α) : Within nil t := fun _ => ⟨rfl, List.nil_sublist _⟩

theorem each (f : β → Trace α) {bs cs : List β} (h : bs.Sublist cs) :
    Within (each f bs) (each f cs) := by
  induction h with
  | slnil => exact refl _
  | @cons bs cs c _ ih =>
    have hx := (nil (f c)).append ih
    rwa [nil_append] at hx
  | @cons_cons bs cs c _ ih => exact (refl (f c)).append ih

end Within

end Trace

end ScriptSchema
