import ScriptSchema.Proofs.Overlay

/-!
# The classes of variants

The class of a variant is put together in three layers: the field of the tag, the fields that all
variants share, and those of the variant. A field is as the uppermost layer declares it, and stands
where the lowest layer has it.

* `Tagging.fieldNames`, `Tagging.tagSpec`, `Tagging.fieldSpec?`: what a tagging declares;
* `Component.parts_of_build`: a component has the parts that it was put together from;
* `Component.Layered`, `layered_variant`: the layers of a class;
* `Component.FlattenedFrom`, **`flattened_of_build`**: what putting a component together gives, and
  when it fails.
-/

namespace ScriptSchema

/-! ## The layer of the tag -/

namespace Tagging

/-- The fields that hold the tag: the one under the key, unless a rule gives the tag. -/
def fieldNames : Tagging → List String
  | byKey key => [key]
  | byRule _ _ => []

/-- The spec of a tag: there has to be the name of a variant. -/
def tagSpec (kind : String) (names : List String) : Spec :=
  .terminal (.enum names) ⟨true, some ("Type of " ++ kind ++ ".")⟩

/-- What a tagging of components of that kind declares of a field. -/
def fieldSpec? (kind : String) (names : List String) (field : String) : Tagging → Option Spec
  | byKey key => if field = key then some (tagSpec kind names) else none
  | byRule _ _ => none

end Tagging

namespace Component

theorem keys_tagFields (c : Component) : c.tagFields.keys = c.tagging.fieldNames := by
  unfold tagFields
  rcases c.tagging with key | _ <;> rfl

theorem lookup_tagFields (c : Component) (field : String) :
    c.tagFields.lookup field = c.tagging.fieldSpec? c.kind c.variants.keys field := by
  unfold tagFields
  rcases c.tagging with key | _
  · by_cases h : field = key
    · simp [Tagging.fieldSpec?, Tagging.tagSpec, Spec.ofOptions, Spec.require, Spec.explained,
        Spec.withInfo, Spec.info, Info.plain, h]
    · simp [Tagging.fieldSpec?, List.lookup_cons, beq_eq_false_iff_ne.2 h, h]
  · rfl

theorem distinct_tagFields (c : Component) : Entries.Distinct c.tagFields := by
  rw [Entries.Distinct, keys_tagFields]
  rcases c.tagging with key | _
  · exact List.nodup_singleton key
  · exact List.nodup_nil

/-! ## Layers -/

variable (kind : String) (tagging : Tagging) (shared : Fields) (variants : Entries Class)

/-- **The class of a variant in layers**: what the tagging declares, under the shared fields, under
the variant's own. -/
structure Layered (names : List String) (own chosen : Class) : Prop where
  /-- No field is declared twice. -/
  distinct : Entries.Distinct chosen.fields
  /-- A field is as the uppermost layer declares it. -/
  lookup : ∀ field, chosen.fields.lookup field =
    (own.fields.lookup field).or
      ((shared.lookup field).or (tagging.fieldSpec? kind names field))
  /-- The fields of a layer stand behind those of the layers below it, each layer in its order. -/
  keys : chosen.fields.keys =
    tagging.fieldNames ++
      (shared.keys.filter fun name => decide (name ∉ tagging.fieldNames)) ++
      own.fields.keys.filter fun name => decide (name ∉ tagging.fieldNames ∧ name ∉ shared.keys)
  hook : chosen.hook = own.hook

/-- **A component with the classes that its parts call for.** -/
structure FlattenedFrom (c : Component) : Prop where
  /-- The variants are named in the order in which they were declared. -/
  names : c.variants.keys = variants.keys
  /-- They have classes, and nothing else has. -/
  defined : ∀ name, (c.variant? name).isSome = true ↔ name ∈ variants.keys
  layered : ∀ name own, (name, own) ∈ variants →
    ∃ chosen, c.variant? name = some chosen ∧ Layered kind tagging shared variants.keys own chosen

variable {kind tagging shared variants} {c : Component}

theorem layered_variant (c : Component) (hs : Entries.Distinct c.shared) {own : Class}
    (ho : Entries.Distinct own.fields) :
    Layered c.kind c.tagging c.shared c.variants.keys own
      ⟨(c.tagFields.overlay c.shared).overlay own.fields, own.hook⟩ where
  distinct := (c.distinct_tagFields.overlay c.shared).overlay own.fields
  lookup field := by
    rw [Entries.lookup_overlay_of_distinct ho, Entries.lookup_overlay_of_distinct hs,
      lookup_tagFields]
  keys := by
    have hlower : (c.tagFields.overlay c.shared).keys = c.tagging.fieldNames ++
        c.shared.keys.filter fun name => decide (name ∉ c.tagging.fieldNames) := by
      rw [Entries.keys_overlay_of_distinct hs, keys_tagFields]
    rw [Entries.keys_overlay_of_distinct ho, hlower]
    congr 1
    refine List.filter_congr fun name _ => ?_
    rw [decide_eq_decide, ← hlower, Entries.mem_keys_overlay, keys_tagFields, not_or]
  hook := rfl

/-! ## Putting a component together -/

/-- A component has the parts that it was put together from. -/
theorem parts_of_build (h : build kind tagging shared variants = .ok c) :
    c.kind = kind ∧ c.tagging = tagging ∧ c.shared = shared ∧ c.variants = variants := by
  unfold build at h
  split at h
  · cases h
  split at h
  · cases h
  split at h
  · cases h
  · obtain rfl := Except.ok.inj h
    exact ⟨rfl, rfl, rfl, rfl⟩

theorem build_eq_error_iff : (∃ fault, build kind tagging shared variants = .error fault) ↔
    tagging.key = "" ∨ variants = [] ∨ ¬ variants.Distinct := by
  have hok := build_eq_ok_iff kind tagging shared variants
  rcases hb : build kind tagging shared variants with fault | c
  · have hnot : ¬ (tagging.key ≠ "" ∧ variants ≠ [] ∧ variants.Distinct) := fun h => by
      obtain ⟨c, hc⟩ := hok.2 h
      nomatch hb.symm.trans hc
    refine iff_of_true ⟨fault, rfl⟩ ?_
    rwa [not_and_or, not_and_or, not_not, not_not] at hnot
  · obtain ⟨hk, hv, hd⟩ := hok.1 ⟨c, hb⟩
    refine iff_of_false ?_ ?_
    · rintro ⟨fault, h⟩
      cases h
    · rintro (h | h | h)
      · exact hk h
      · exact hv h
      · exact h hd

/-- **A component that can be put together has the classes that its parts call for.** It cannot if
it has no key or no variants, or if a variant is declared twice, and only then. -/
theorem flattened_of_build (kind : String) (tagging : Tagging) (hs : Fields.Built shared)
    (hv : ∀ v ∈ variants, Fields.Built v.2.fields) :
    (∀ c, build kind tagging shared variants = .ok c →
      FlattenedFrom kind tagging shared variants c) ∧
    ((∃ fault, build kind tagging shared variants = .error fault) ↔
      tagging.key = "" ∨ variants = [] ∨ ¬ variants.Distinct) := by
  refine ⟨fun c h => ?_, build_eq_error_iff⟩
  obtain ⟨rfl, rfl, rfl, rfl⟩ := parts_of_build h
  refine ⟨rfl, c.isSome_variant?_iff, fun name own hm => ?_⟩
  exact ⟨_, variant?_eq_some (c.distinct.lookup_eq hm),
    c.layered_variant hs.distinct (hv _ hm).distinct⟩

/-- Animals of two families. Snakes declare a shared field once more, and fishes have a hook. -/
def families : Entries Class :=
  [("snake", ⟨Fields.snake, none⟩),
    ("fish", ⟨[("numFins", .terminal (.scalar .number) .plain)], some fun _ _ => ["Fishes swim."]⟩)]

theorem flattened_families : Fields.Built Fields.animal ∧
    (∀ v ∈ families, Fields.Built v.2.fields) ∧
    ∃ c, build "animal" (.byKey "family") Fields.animal families = .ok c ∧
      FlattenedFrom "animal" (.byKey "family") Fields.animal families c := by
  have hs : Fields.Built Fields.animal := Fields.built_iff_distinct.2 (by decide)
  have hd : ∀ v ∈ families, Entries.Distinct v.2.fields := by decide
  have hv : ∀ v ∈ families, Fields.Built v.2.fields := fun v hm =>
    Fields.built_iff_distinct.2 (hd v hm)
  obtain ⟨c, hc⟩ := (build_eq_ok_iff "animal" (.byKey "family") Fields.animal families).2
    ⟨by decide, List.cons_ne_nil _ _, by decide⟩
  exact ⟨hs, hv, c, hc, (flattened_of_build "animal" (.byKey "family") hs hv).1 c hc⟩

end Component

end ScriptSchema
