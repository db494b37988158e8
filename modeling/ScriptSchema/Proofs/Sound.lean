import ScriptSchema.Proofs.Search
import ScriptSchema.Schema.Check

/-!
# Sound schemas

What the check of a schema establishes, said without the check: every class of the schema has specs
that name registered components and non-empty enums only.

* `Spec.Every`: all terminals and component kinds of a spec have a property;
* `Schema.Describes`: the classes of a schema, of resource types and of variants;
* `Schema.Sound`, **`sound_of_check`**: what the check establishes;
* `Sound.everyField_classAt`: the class by which a walk goes on below a component is sound, also
  where no known variant is chosen.
-/

namespace ScriptSchema

/-! ## Specs all of whose parts have a property -/

namespace Spec

mutual

/-- All terminals of the spec satisfy `p`, and all kinds of components that it names satisfy `q`. -/
def Every (p : Terminal → Prop) (q : String → Prop) : Spec → Prop
  | terminal t _ => p t
  | list items _ => items.Every p q
  | dictionary keys values _ => keys.Every p q ∧ values.Every p q
  | object fields _ => EveryField p q fields
  | component kind _ => q kind

/-- The specs of all fields are such. -/
def EveryField (p : Terminal → Prop) (q : String → Prop) : List (String × Spec) → Prop
  | [] => True
  | (_, spec) :: fields => spec.Every p q ∧ EveryField p q fields

end

variable {p : Terminal → Prop} {q : String → Prop}

theorem everyField_iff {fields : Fields} :
    EveryField p q fields ↔ ∀ f ∈ fields, f.2.Every p q := by
  induction fields with
  | nil => simp [EveryField]
  | cons f fields ih => rw [EveryField, ih, List.forall_mem_cons]

/-- A lone `self` is one of the fields. -/
theorem mem_of_lone {fields : Fields} {spec : Spec} (hl : fields.lone? = some spec) :
    ∃ name, (name, spec) ∈ fields := by
  obtain rfl := Fields.lone?_eq_some_iff.1 hl
  exact ⟨_, List.mem_singleton_self _⟩

theorem EveryField.lone {fields : Fields} (h : EveryField p q fields) {spec : Spec}
    (hl : fields.lone? = some spec) : spec.Every p q :=
  let ⟨_, hf⟩ := mem_of_lone hl
  everyField_iff.1 h _ hf

end Spec

/-! ## Traversals that end at the first fault -/

theorem bind_eq_ok_iff {ε α β : Type} {x : Except ε α} {f : α → Except ε β} {b : β} :
    x >>= f = .ok b ↔ ∃ a, x = .ok a ∧ f a = .ok b := by
  rcases x with e | a
  · exact ⟨nofun, fun ⟨_, h, _⟩ => nomatch h⟩
  · exact ⟨fun h => ⟨a, rfl, h⟩, fun ⟨_, h, hb⟩ => Except.ok.inj h ▸ hb⟩

theorem forM_eq_ok_iff {ε α : Type} {f : α → Except ε Unit} {as : List α} :
    as.forM f = .ok () ↔ ∀ a ∈ as, f a = .ok () := by
  induction as with
  | nil => exact ⟨fun _ => nofun, fun _ => rfl⟩
  | cons a as ih =>
    rw [List.forall_mem_cons, ← ih]
    change (f a >>= fun _ => as.forM f) = _ ↔ _
    rw [bind_eq_ok_iff]
    exact ⟨fun ⟨_, h, h'⟩ => ⟨h, h'⟩, fun ⟨h, h'⟩ => ⟨(), h, h'⟩⟩

theorem map_eq_ok_iff {ε α β : Type} {x : Except ε α} {f : α → β} {b : β} :
    x.map f = .ok b ↔ ∃ a, x = .ok a ∧ f a = b := by
  rcases x with e | a
  · exact ⟨nofun, fun ⟨_, h, _⟩ => nomatch h⟩
  · exact ⟨fun h => ⟨a, rfl, Except.ok.inj h⟩, fun ⟨_, h, hb⟩ =>
      congrArg Except.ok (Except.ok.inj h ▸ hb)⟩

theorem Search.map_eq_nil_iff {α β : Type} (f : α → β) {x : Search α} :
    x.map (List.map f) = .ok [] ↔ x = .ok [] := by
  rw [map_eq_ok_iff]
  simp only [List.map_eq_nil_iff, exists_eq_right]

namespace Schema

variable (S : Schema)

/-! ## The classes of a schema -/

/-- A class of the schema: of a resource type, or of a variant of a component. -/
inductive Describes : Class → Prop where
  | resource {type : String} {c : Class} (h : (type, c) ∈ S.resources.entries) : Describes c
  | variant {kind name : String} {union : Component} {c : Class}
    (h : S.components.find? kind = some union) (hc : union.variant? name = some c) : Describes c

theorem describes_of_resourceFor {collection type : String} {c : Class}
    (h : S.resourceFor? collection = some (type, c)) : S.Describes c := by
  unfold resourceFor? at h
  dsimp only at h
  split at h
  · rename_i c' hc
    obtain ⟨rfl, rfl⟩ := Prod.mk.inj (Option.some.inj h)
    exact .resource (mem_of_lookup hc)
  · exact .resource (List.mem_of_find?_eq_some h)

/-- The terminal can be compared with values: enums have options, and kinds are registered. -/
def Admits : Terminal → Prop
  | .enum options => options ≠ []
  | .instanceId kind => (S.components.find? kind).isSome
  | _ => True

/-- A component of the kind is registered. -/
def Registers (kind : String) : Prop := (S.components.find? kind).isSome

/-- Every class of the schema can be compared with values, and ids are asked for of registered
components only. -/
structure Sound : Prop where
  everyField : ∀ c, S.Describes c → Spec.EveryField S.Admits S.Registers c.fields
  registers : ∀ kind field, (kind, field) ∈ S.idFields → S.Registers kind

/-! ## What the check establishes -/

theorem component_eq_ok_iff {kind : String} {c : Component} :
    S.component kind = .ok c ↔ S.components.find? kind = some c := by
  unfold component
  rcases S.components.find? kind with _ | c' <;> simp

theorem registers_iff {kind : String} :
    S.Registers kind ↔ (S.component kind).map (fun _ => ()) = .ok () := by
  rw [map_eq_ok_iff, Registers, Option.isSome_iff_exists]
  simp only [component_eq_ok_iff, and_true]

mutual

/-- A spec without faults, at any path. -/
theorem checkShape_eq_ok_iff (path : String) (spec : Spec) :
    S.checkShape path spec = .ok () ↔ spec.Every S.Admits S.Registers := by
  match spec with
  | .terminal (.scalar _) _ => simp [checkShape, Spec.Every, Admits]
  | .terminal (.reference _ _ _) _ => simp [checkShape, Spec.Every, Admits]
  | .terminal (.enum options) _ => cases options <;> simp [checkShape, Spec.Every, Admits]
  | .terminal (.instanceId kind) _ => exact S.registers_iff.symm
  | .component kind _ => exact S.registers_iff.symm
  | .list items _ => exact checkShape_eq_ok_iff _ items
  | .dictionary keys values _ =>
    rw [checkShape, bind_eq_ok_iff, Spec.Every, ← checkShape_eq_ok_iff (Path.entry path "key") keys,
      ← checkShape_eq_ok_iff (Path.entry path "value") values]
    exact ⟨fun ⟨_, h, h'⟩ => ⟨h, h'⟩, fun ⟨h, h'⟩ => ⟨(), h, h'⟩⟩
  | .object fields _ => exact checkFields_eq_ok_iff path fields

/-- Fields without faults, below any path. -/
theorem checkFields_eq_ok_iff (path : String) (fields : List (String × Spec)) :
    S.checkFields path fields = .ok () ↔ Spec.EveryField S.Admits S.Registers fields := by
  match fields with
  | [] => simp [checkFields, Spec.EveryField]
  | (name, spec) :: fields =>
    rw [checkFields, bind_eq_ok_iff, Spec.EveryField,
      ← checkShape_eq_ok_iff (path ++ "." ++ name) spec, ← checkFields_eq_ok_iff path fields]
    exact ⟨fun ⟨_, h, h'⟩ => ⟨h, h'⟩, fun ⟨h, h'⟩ => ⟨(), h, h'⟩⟩

end

/-- **A schema in which the check finds no fault is sound.** -/
theorem sound_of_check (h : S.check = .ok ()) : S.Sound := by
  obtain ⟨_, hr, h⟩ := bind_eq_ok_iff.1 h
  obtain ⟨_, hc, hi⟩ := bind_eq_ok_iff.1 h
  rw [forM_eq_ok_iff] at hr hc hi
  refine ⟨fun c hd => ?_, fun kind field hk => S.registers_iff.2 (hi (kind, field) hk)⟩
  cases hd with
  | resource h => exact (S.checkFields_eq_ok_iff _ _).1 (hr _ h)
  | variant h hv =>
    rename_i kind name union
    obtain ⟨_, _, hvs⟩ := bind_eq_ok_iff.1 (hc _ (mem_of_lookup h))
    have hn : name ∈ union.variants.keys :=
      (union.isSome_variant?_iff name).1 (Option.isSome_of_eq_some hv)
    have hf := (S.checkFields_eq_ok_iff _ _).1 (forM_eq_ok_iff.1 hvs name hn)
    rwa [Component.classNamed, Option.bind_some, hv, Option.getD_some] at hf

/-! ## The class below a component -/

theorem everyField_untagged (c : Component) :
    Spec.EveryField S.Admits S.Registers c.untagged.fields := by
  have hk : c.variants.keys ≠ [] := fun h => c.variants_ne (List.map_eq_nil_iff.1 h)
  unfold Component.untagged Component.tagFields
  split
  · exact ⟨hk, trivial⟩
  · trivial

variable {S}

theorem classAt_eq {c : Component} {v : Value} {variant : String} {chosen : Class}
    (hv : c.choose v = .variant variant) (hx : c.variant? variant = some chosen) :
    c.classAt v = chosen := by
  rw [Component.classAt, hv]
  simp only [Component.classNamed, Option.bind_some, hx, Option.getD_some]

/-- The class of a value is that of a variant, or it can hold the tag only. -/
theorem classAt_cases (c : Component) (v : Value) :
    (∃ name, c.variant? name = some (c.classAt v)) ∨ c.classAt v = c.untagged := by
  unfold Component.classAt Component.classNamed
  split
  · rename_i name _
    rw [Option.bind_some]
    rcases hv : c.variant? name with _ | chosen
    · exact .inr rfl
    · exact .inl ⟨name, hv⟩
  · exact .inr rfl

theorem Sound.everyField_classAt (h : S.Sound) {kind : String} {c : Component}
    (hc : S.components.find? kind = some c) (v : Value) :
    Spec.EveryField S.Admits S.Registers (c.classAt v).fields := by
  rcases classAt_cases c v with ⟨name, hn⟩ | hu
  · exact h.everyField _ (.variant hc hn)
  · rw [hu]
    exact S.everyField_untagged c

end Schema

end ScriptSchema
