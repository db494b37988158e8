import ScriptSchema.Proofs.Deletion

/-!
# Two ways into an instance

A walk can start at an instance of a component, which is a value with the component as its spec, or
below it, at its fields. The walk from the instance visits the instance and then does what the walk
from its fields does, but only if the instance is an object. A class whose only field is `self`
describes other values too, and these only the walk from the fields goes into.

* `Trace.append_left_inj`: walks that begin in the same way;
* `Schema.ownVisit`: the visit of the instance itself;
* `present_descent`: below what is no object, it does not matter which components describe it;
* `visits_component_eq`: the walk from an instance, by that from its fields;
* **`visits_component_iff`**: when the two see the same below the instance.
-/

namespace ScriptSchema

/-- Walks that begin in the same way, without an error, are the same if the rest is. -/
theorem Trace.append_left_inj {α : Type} {t : Trace α} (h : t.error = none) (u w : Trace α) :
    t ++ u = t ++ w ↔ u = w := by
  refine ⟨fun hx => ?_, congrArg (t ++ ·)⟩
  rw [append_of_none h, append_of_none h] at hx
  obtain ⟨hseen, herror⟩ := Trace.mk.inj hx
  rw [List.append_right_inj] at hseen
  obtain ⟨seen, error⟩ := u
  obtain ⟨seen', error'⟩ := w
  rw [show seen = seen' from hseen, show error = error' from herror]

namespace Schema

variable (S : Schema) (focus : Focus)

/-- The visit of an instance itself, if the focus takes it. -/
def ownVisit (focus : Focus) (kind : String) (info : Info) (v : Value) : Trace Visit :=
  if focus.takesComponent kind then .ofList [⟨"", .component kind info, false, v⟩] else .nil

theorem error_ownVisit (kind : String) (info : Info) (v : Value) :
    (ownVisit focus kind info v).error = none := by
  unfold ownVisit
  split <;> rfl

/-- Components do not go on below what is no object, so that it does not matter which of them
describe the value already. -/
theorem present_descent :
    S.Descent
      (fun present spec v => v.isObject = false → ∀ path,
        S.visitsWhile focus present path spec v = S.visits focus path spec v)
      (fun present fields v => v.isObject = false → ∀ path,
        S.fieldVisitsWhile focus present path fields v = S.fieldVisits focus path fields v) where
  terminal present t info v _ path := by rw [visits, visitsWhile_terminal, visitsWhile_terminal]
  list present items info v _ _ path := by rw [visits, visitsWhile_list_eq, visitsWhile_list_eq]
  dictionary present keys values info v _ _ path := by
    rw [visits, visitsWhile_dictionary_eq, visitsWhile_dictionary_eq]
  object present fields info v ih hv path := by
    rw [visits, visitsWhile_object, visitsWhile_object]
    exact ih hv path
  component present kind info v _ hv path := by
    rw [visits, visitsWhile_component_eq, visitsWhile_component_eq]
    simp only [hv, Bool.false_eq_true, if_false]
  fields present fields v lone _ hv path := by
    rw [fieldVisits, fieldVisitsWhile_eq, fieldVisitsWhile_eq]
    rcases hl : fields.lone? with _ | spec
    · rfl
    · exact lone spec hl hv path

variable {S focus} {kind : String} {c : Component}

/-- The walk from an instance visits the instance, and then goes into its fields if it is an
object. -/
theorem visits_component_eq (hc : S.components.find? kind = some c) (info : Info) (v : Value) :
    S.visits focus "" (.component kind info) v = ownVisit focus kind info v ++
      if v.isObject then S.componentVisits focus kind v else .nil := by
  have hk : kind ∉ ([] : List String) := List.not_mem_nil
  rw [visits, visitsWhile_component_eq, componentVisits]
  simp only [hc, hk, if_false]
  rfl

/-- The walk from the fields of what is no object goes by the spec of a lone `self`, if there is
one. -/
theorem componentVisits_of_not_isObject (hc : S.components.find? kind = some c) {v : Value}
    (hv : v.isObject = false) :
    S.componentVisits focus kind v =
      (c.classAt v).fields.lone?.elim .nil fun spec => S.visits focus "" spec v := by
  have ho : v.object? = none := Option.isSome_eq_false_iff.1 hv |> Option.isNone_iff_eq_none.1
  rw [componentVisits, hc]
  dsimp only
  rw [fieldVisitsWhile_eq]
  rcases hl : (c.classAt v).fields.lone? with _ | spec
  · rw [ho]
    rfl
  · exact (S.present_descent focus).spec [kind] spec v hv ""

/-- **The walk from an instance sees the instance and what the walk from its fields sees, and ends
as that does**, if and only if the instance is an object, or there is nothing to see by a lone
`self` of its class. -/
theorem visits_component_iff (focus : Focus) (hc : S.components.find? kind = some c) (info : Info)
    (v : Value) :
    S.visits focus "" (.component kind info) v =
        ownVisit focus kind info v ++ S.componentVisits focus kind v ↔
      (v.isObject = true ∨
        ∀ spec, (c.classAt v).fields.lone? = some spec → S.visits focus "" spec v = .nil) := by
  rw [visits_component_eq hc, Trace.append_left_inj (error_ownVisit focus kind info v)]
  rcases hv : v.isObject with _ | _
  · simp only [Bool.false_eq_true, if_false, false_or]
    rw [componentVisits_of_not_isObject hc hv]
    rcases (c.classAt v).fields.lone? with _ | spec
    · simp
    · simp [eq_comm]
  · simp

theorem visits_component_iff_recipient :
    notes.components.find? "recipient" = some recipient ∧
      (notes.visits .any "" (.component "recipient" .plain) (.object []) =
          ownVisit .any "recipient" .plain (.object []) ++
            notes.componentVisits .any "recipient" (.object []) ↔
        ((Value.object []).isObject = true ∨
          ∀ spec, (recipient.classAt (.object [])).fields.lone? = some spec →
            notes.visits .any "" spec (.object []) = .nil)) :=
  ⟨rfl, visits_component_iff .any rfl .plain (.object [])⟩

/-- For a role by its name alone, the walk from its fields visits the reference, and the walk from
the instance does not. -/
theorem not_visits_component_eq :
    ¬ ∀ (S : Schema) (kind : String) (c : Component) (focus : Focus) (info : Info) (v : Value),
      S.components.find? kind = some c →
      S.visits focus "" (.component kind info) v =
        ownVisit focus kind info v ++ S.componentVisits focus kind v := by
  intro h
  have hx := congrArg (·.seen.length)
    (h notes "recipient" recipient .terminal .plain (.string "eve") rfl)
  have hl : (notes.visits .terminal "" (.component "recipient" .plain) (.string "eve")).seen.length
      = 0 := by cbv
  have hr : (ownVisit .terminal "recipient" .plain (.string "eve") ++
      notes.componentVisits .terminal "recipient" (.string "eve")).seen.length = 1 := by cbv
  simp [hl, hr] at hx

end Schema

end ScriptSchema
