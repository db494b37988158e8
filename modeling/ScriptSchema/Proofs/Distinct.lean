import ScriptSchema.Proofs.Faultless

/-!
# Schemas that declare nothing twice

Fields are set by name: a field that is set once more is replaced where it stands. In a schema that
was put together so, no two fields of an object have the same name.

* `Entries.mem_put`, `Entries.mem_overlay`: what is there after writing;
* `Spec.Distinct`, `Spec.Distinct.overlay`: fields that were set by name;
* `Schema.Distinct`: no class of the schema declares a field twice, at any level;
* **`Distinct.addResource`**, **`Distinct.addComponent`**: schemas that were put together.
-/

namespace ScriptSchema

/-! ## What was written -/

namespace Entries

variable {α : Type}

theorem mem_put {es : Entries α} {key : String} {a : α} {e : String × α} (h : e ∈ es.put key a) :
    e = (key, a) ∨ e ∈ es := by
  induction es with
  | nil => exact .inl (List.mem_singleton.1 h)
  | cons f es ih =>
    obtain ⟨k, b⟩ := f
    unfold put at h
    split at h
    · exact (List.mem_cons.1 h).imp_right (List.mem_cons_of_mem _)
    · rcases List.mem_cons.1 h with rfl | h
      · exact .inr List.mem_cons_self
      · exact (ih h).imp_right (List.mem_cons_of_mem _)

theorem mem_overlay {es upper : Entries α} {e : String × α} (h : e ∈ es.overlay upper) :
    e ∈ es ∨ e ∈ upper := by
  unfold overlay at h
  induction upper generalizing es with
  | nil => exact .inl h
  | cons f upper ih =>
    rcases ih h with h | h
    · rcases mem_put h with rfl | h
      · exact .inr List.mem_cons_self
      · exact .inl h
    · exact .inr (List.mem_cons_of_mem f h)

end Entries

namespace Directory

variable {α : Type}

theorem mem_add {d : Directory α} {key : String} {a : α} {e : String × α}
    (h : e ∈ (d.add key a).entries) : e = (key, a) ∨ e ∈ d.entries := by
  suffices ∀ es : Entries α, e ∈ place key a es → e = (key, a) ∨ e ∈ es from this d.entries h
  intro es
  induction es with
  | nil => exact fun h => .inl (List.mem_singleton.1 h)
  | cons f es ih =>
    obtain ⟨k, b⟩ := f
    intro h
    unfold place at h
    split at h
    · exact List.mem_cons.1 h
    · split at h
      · exact (List.mem_cons.1 h).imp_right (List.mem_cons_of_mem _)
      · rcases List.mem_cons.1 h with rfl | h
        · exact .inr List.mem_cons_self
        · exact (ih h).imp_right (List.mem_cons_of_mem _)

end Directory

/-! ## Specs -/

namespace Spec

mutual

/-- No object in the spec declares a field twice. -/
def Distinct : Spec → Prop
  | terminal _ _ => True
  | list items _ => items.Distinct
  | dictionary keys values _ => keys.Distinct ∧ values.Distinct
  | object fields _ => Entries.Distinct fields ∧ EachDistinct fields
  | component _ _ => True

/-- The specs of all fields are such. -/
def EachDistinct : List (String × Spec) → Prop
  | [] => True
  | (_, spec) :: fields => spec.Distinct ∧ EachDistinct fields

end

theorem eachDistinct_iff {fields : Fields} : EachDistinct fields ↔ ∀ f ∈ fields, f.2.Distinct := by
  induction fields with
  | nil => simp [EachDistinct]
  | cons f fields ih => rw [EachDistinct, ih, List.forall_mem_cons]

theorem Distinct.lone {fields : Fields} {info : Info} (h : (object fields info).Distinct)
    {spec : Spec} (hl : fields.lone? = some spec) : spec.Distinct :=
  let ⟨_, hf⟩ := mem_of_lone hl
  eachDistinct_iff.1 h.2 _ hf

variable {fields : Fields} {info : Info}

/-- Fields that are set one after the other are not declared twice. -/
theorem Distinct.overlay (h : (object fields info).Distinct) {upper : Fields}
    (hu : ∀ f ∈ upper, f.2.Distinct) : (object (fields.overlay upper) info).Distinct := by
  refine ⟨Entries.Distinct.overlay h.1 upper, eachDistinct_iff.2 fun f hf => ?_⟩
  rcases Entries.mem_overlay hf with hf | hf
  · exact eachDistinct_iff.1 h.2 f hf
  · exact hu f hf

end Spec

/-! ## Schemas -/

namespace Schema

/-- No class of the schema declares a field twice, at any level. -/
def Distinct (S : Schema) : Prop := ∀ c, S.Describes c → (Spec.object c.fields .plain).Distinct

variable {S : Schema}

theorem distinct_untagged (c : Component) : (Spec.object c.untagged.fields .plain).Distinct := by
  unfold Component.untagged Component.tagFields
  split
  · exact ⟨List.nodup_cons.2 ⟨List.not_mem_nil, List.nodup_nil⟩, trivial, trivial⟩
  · exact ⟨List.nodup_nil, trivial⟩

theorem Distinct.classAt (h : S.Distinct) {kind : String} {c : Component}
    (hc : S.components.find? kind = some c) (v : Value) :
    (Spec.object (c.classAt v).fields .plain).Distinct := by
  rcases classAt_cases c v with ⟨name, hn⟩ | hu
  · exact h _ (.variant hc hn)
  · rw [hu]
    exact distinct_untagged c

/-! ## Schemas that were put together -/

theorem distinct_empty : empty.Distinct := by
  intro c h
  cases h with
  | resource h => nomatch h
  | variant h => nomatch h

theorem Distinct.addResource (h : S.Distinct) (type : String) {c : Class}
    (hc : (Spec.object c.fields .plain).Distinct) : (S.addResource type c).Distinct := by
  intro c' h'
  cases h' with
  | resource h' =>
    rcases Directory.mem_add h' with he | h'
    · obtain rfl := (Prod.mk.inj he).2
      exact hc
    · exact h c' (.resource h')
  | variant h' hv => exact h c' (.variant h' hv)

/-- A variant's class takes its fields from the tag, from those that are shared and from its own;
whoever declares one again replaces it. -/
theorem Distinct.addComponent (h : S.Distinct) {c : Component}
    (hs : ∀ f ∈ c.shared, f.2.Distinct)
    (hv : ∀ v ∈ c.variants, ∀ f ∈ v.2.fields, f.2.Distinct) : (S.addComponent c).Distinct := by
  intro c' h'
  cases h' with
  | resource h' => exact h c' (.resource h')
  | @variant kind _ union _ h' hc' =>
    have hkind : (S.components.add c.kind c).find? kind = some union := h'
    rw [Directory.find?_add] at hkind
    split at hkind
    · obtain rfl := Option.some.inj hkind
      obtain ⟨own, ho, rfl⟩ := Option.map_eq_some_iff.1 hc'
      exact ((distinct_untagged c).overlay hs).overlay (hv _ (mem_of_lookup ho))
    · exact h c' (.variant hkind hc')

theorem Distinct.addIdField (h : S.Distinct) (kind field : String) :
    (S.addIdField kind field).Distinct := by
  intro c h'
  cases h' with
  | resource h' => exact h c (.resource h')
  | variant h' hv => exact h c (.variant h' hv)

theorem distinct_scenes : scenes.Distinct := by
  refine ((distinct_empty.addResource "scene" ?_).addComponent ?_ ?_).addIdField "cue" "id"
  · exact ⟨by decide, trivial, trivial, trivial, trivial⟩
  · exact List.forall_mem_singleton.2 trivial
  · refine List.forall_mem_cons.2 ⟨?_, List.forall_mem_singleton.2 ?_⟩
    · exact List.forall_mem_singleton.2 trivial
    · exact List.forall_mem_singleton.2 trivial

end Schema

end ScriptSchema
