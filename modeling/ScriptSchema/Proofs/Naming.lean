import ScriptSchema.Proofs.Grounded

/-!
# What the references in a value name

References to a resource stand in fields, in lists, and in the keys and values of dictionaries. What
they name is read off the walk, level by level, without saying where they stand.

* `Value.EveryObject`: a property of the keys of all objects in a value;
* `Spec.LoneFree`, `Schema.Keyed`: values that tell their variant by a string which is no reference;
* `Schema.named`: what the references in a value name;
* `named_list`, `named_dictionary`, `named_object`, `named_component`: level by level.
-/

namespace ScriptSchema

variable {α β γ : Type}

/-! ## Lists that are related one by one -/

theorem map_eq_of_forall₂ {f : α → γ} {g : β → γ} {as : List α} {bs : List β}
    (h : List.Forall₂ (fun a b => g b = f a) as bs) : bs.map g = as.map f := by
  induction h with
  | nil => rfl
  | cons hab _ ih => rw [List.map_cons, List.map_cons, hab, ih]

theorem forall₂_zipIdx {r : α → β → Prop} {as : List α} {bs : List β} (h : List.Forall₂ r as bs)
    (index : Nat) :
    List.Forall₂ (fun m n => r m.1 n.1 ∧ n.2 = m.2) (as.zipIdx index) (bs.zipIdx index) := by
  induction h generalizing index with
  | nil => exact .nil
  | cons hab _ ih => exact .cons ⟨hab, rfl⟩ (ih (index + 1))

theorem Trace.each_of_forall₂ {f : α → Trace γ} {g : β → Trace γ} {as : List α} {bs : List β}
    (h : List.Forall₂ (fun a b => g b = f a) as bs) : each g bs = each f as := by
  induction h with
  | nil => rfl
  | cons hab _ ih => rw [each, each, hab, ih]

theorem Trace.map_map (f : α → β) (g : β → γ) (t : Trace α) :
    (t.map f).map g = t.map fun a => g (f a) := by
  simp only [Trace.map, List.map_map]
  rfl

/-! ## The objects in a value -/

namespace Value

mutual

/-- The keys of every object in the value are as `p` says. -/
def EveryObject (p : List String → Prop) : Value → Prop
  | array vs => EveryItem p vs
  | object es => p (Entries.keys es) ∧ EveryEntry p es
  | _ => True

/-- The same of all items. -/
def EveryItem (p : List String → Prop) : List Value → Prop
  | [] => True
  | v :: vs => v.EveryObject p ∧ EveryItem p vs

/-- The same of the values of all entries. -/
def EveryEntry (p : List String → Prop) : List (String × Value) → Prop
  | [] => True
  | (_, v) :: es => v.EveryObject p ∧ EveryEntry p es

end

variable {p : List String → Prop}

theorem everyItem_iff {vs : List Value} : EveryItem p vs ↔ ∀ v ∈ vs, v.EveryObject p := by
  induction vs with
  | nil => simp [EveryItem]
  | cons v vs ih => rw [EveryItem, ih, List.forall_mem_cons]

theorem everyEntry_iff {es : Entries Value} : EveryEntry p es ↔ ∀ e ∈ es, e.2.EveryObject p := by
  induction es with
  | nil => simp [EveryEntry]
  | cons e es ih => rw [EveryEntry, ih, List.forall_mem_cons]

end Value

theorem Value.EveryObject.below {S : Schema} {p : List String → Prop} {a : Bool}
    {spec spec' : Spec} {v v' : Value} (h : v.EveryObject p) (hb : S.Below a spec v spec' v') :
    v'.EveryObject p := by
  cases hb with
  | item hw => exact everyItem_iff.1 h _ hw
  | key => trivial
  | value he => exact everyEntry_iff.1 h.2 _ he
  | lone => exact h
  | field _ _ hw => exact everyEntry_iff.1 h.2 _ (mem_of_lookup hw)
  | variant => exact h

theorem Value.EveryObject.reaches {S : Schema} {p : List String → Prop} {b : Bool}
    {spec spec' : Spec} {v v' : Value} (h : v.EveryObject p) (hr : S.Reaches b spec v spec' v') :
    v'.EveryObject p := by
  induction hr with
  | here => exact h
  | step hb _ ih => exact ih (h.below hb)

/-- The spec is one of references by name. -/
def Spec.isReference (spec : Spec) : Bool := spec.terminal?.any Focus.reference.takes

/-! ## Schemas that tell variants by a key -/

namespace Spec

mutual

/-- No object in the spec is described by a lone `self`. -/
def LoneFree : Spec → Prop
  | terminal _ _ => True
  | list items _ => items.LoneFree
  | dictionary keys values _ => keys.LoneFree ∧ values.LoneFree
  | object fields _ => Fields.lone? fields = none ∧ EachLoneFree fields
  | component _ _ => True

/-- The specs of all fields are such. -/
def EachLoneFree : List (String × Spec) → Prop
  | [] => True
  | (_, spec) :: fields => spec.LoneFree ∧ EachLoneFree fields

end

theorem eachLoneFree_iff {fields : Fields} : EachLoneFree fields ↔ ∀ f ∈ fields, f.2.LoneFree := by
  induction fields with
  | nil => simp [EachLoneFree]
  | cons f fields ih => rw [EachLoneFree, ih, List.forall_mem_cons]

end Spec

namespace Schema

variable {S : Schema}

variable (S) in
/-- Values tell their variant by the string under a key, which is no reference, and no lone `self`
describes anything. -/
structure Keyed : Prop where
  byKey : ∀ kind c, S.components.find? kind = some c → ∃ key, c.tagging = .byKey key
  loneFree : ∀ c, S.Describes c → (Spec.object c.fields .plain).LoneFree
  tag : ∀ kind c, S.components.find? kind = some c → ∀ name chosen, c.variant? name = some chosen →
    ∀ f ∈ chosen.fields, f.1 = c.tagging.key → f.2.isReference = false

theorem Keyed.grounded (h : S.Keyed) : S.Grounded :=
  grounded_of_lone fun _ _ hc _ _ hx => (h.loneFree _ (.variant hc hx)).1

/-- The tag of a value that has not chosen a variant is one of some options. -/
theorem enum_of_mem_untagged {c : Component} {f : String × Spec} (h : f ∈ c.untagged.fields) :
    ∃ options info, f.2 = .terminal (.enum options) info := by
  unfold Component.untagged Component.tagFields at h
  dsimp only at h
  split at h
  · obtain rfl := List.mem_singleton.1 h
    exact ⟨c.variants.keys, _, rfl⟩
  · nomatch h

theorem Keyed.tag_classAt (h : S.Keyed) {kind : String} {c : Component}
    (hc : S.components.find? kind = some c) (v : Value) :
    ∀ f ∈ (c.classAt v).fields, f.1 = c.tagging.key → f.2.isReference = false := by
  intro f hf hk
  rcases classAt_cases c v with ⟨name, hn⟩ | hu
  · exact h.tag kind c hc name _ hn f hf hk
  · rw [hu] at hf
    obtain ⟨options, info, he⟩ := enum_of_mem_untagged hf
    rw [he]
    rfl

/-- If no class has a lone `self`, then only what has not chosen a variant can be described by one,
and that is the tag. -/
theorem enum_of_lone (h : ∀ c, S.Describes c → c.fields.lone? = none) {kind : String}
    {c : Component} (hc : S.components.find? kind = some c) (v : Value) {spec : Spec}
    (hl : (c.classAt v).fields.lone? = some spec) :
    ∃ options info, spec = .terminal (.enum options) info := by
  rcases classAt_cases c v with ⟨name, hn⟩ | hu
  · exact absurd ((h _ (.variant hc hn)).symm.trans hl) nofun
  · rw [hu] at hl
    obtain ⟨name, hf⟩ := Spec.mem_of_lone hl
    exact enum_of_mem_untagged hf

/-! ## What the references in a value name -/

variable (S) in
/-- What the references in a value name, in the order of the walk; those that name nothing stand
there too. -/
def named (path : String) (spec : Spec) (v : Value) : Trace (Option (String × String)) :=
  (S.visits .reference path spec v).map Visit.named?

section Named

variable (path : String) (info : Info) (v : Value)

theorem named_terminal (t : Terminal) :
    S.named path (.terminal t info) v =
      if Focus.reference.takes t then .ofList [Visit.named? ⟨path, .terminal t info, false, v⟩]
      else .nil := by
  rw [named, visits, visitsWhile_terminal]
  split <;> rfl

theorem named_list (items : Spec) :
    S.named path (.list items info) v =
      match v.array? with
      | some vs => .each (fun m => S.named (Path.item path m.2) items m.1) vs.zipIdx
      | none => .nil := by
  rw [named, visits, visitsWhile_list_eq]
  rcases v.array? with _ | vs
  · rfl
  · exact Trace.map_each _ _ _

theorem named_dictionary (keys values : Spec) :
    S.named path (.dictionary keys values info) v =
      match v.object? with
      | some es => (keyVisits .reference path keys es).map Visit.named? ++
          .each (fun e => S.named (Path.entry path e.1) values e.2) es
      | none => .nil := by
  rw [named, visits, visitsWhile_dictionary_eq]
  rcases v.object? with _ | es
  · rfl
  · exact (Trace.map_append _ _ _).trans
      (congrArg ((keyVisits .reference path keys es).map Visit.named? ++ ·) (Trace.map_each _ _ _))

theorem named_object {fields : Fields} (hl : fields.lone? = none) :
    S.named path (.object fields info) v =
      match v.object? with
      | some es =>
        .each (fun f => (es.lookup f.1).elim .nil (S.named (Path.field path f.1) f.2)) fields
      | none => .nil := by
  rw [named, visits, visitsWhile_object, fieldVisitsWhile_eq, hl]
  rcases v.object? with _ | es
  · rfl
  · refine (Trace.map_each _ _ _).trans (Trace.each_congr fun f _ => ?_)
    rcases es.lookup f.1 with _ | w <;> rfl

theorem named_lone {fields : Fields} {spec : Spec} (hl : fields.lone? = some spec) :
    S.named path (.object fields info) v = S.named path spec v := by
  rw [named, visits, visitsWhile_object, fieldVisitsWhile_eq, hl]
  rfl

theorem named_component (hg : S.Grounded) {kind : String} {c : Component}
    (hc : S.components.find? kind = some c) :
    S.named path (.component kind info) v =
      if v.isObject then S.named path (.object (c.classAt v).fields .plain) v else .nil := by
  rw [named, visits_component_of_settles (hg.settles .walk v _), hc]
  change ((Trace.nil : Trace Visit) ++ _).map _ = _
  rw [Trace.nil_append]
  dsimp only
  split <;> rfl

end Named

end Schema

end ScriptSchema
