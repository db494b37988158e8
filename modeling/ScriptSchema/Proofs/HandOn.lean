import Mathlib.Logic.Relation
import ScriptSchema.Proofs.Descent

/-!
# Handing a value on

A component does not take a value apart: it hands the value on to the fields of a class, and a lone
`self` hands it on to another spec. As long as this comes to an end, which components describe the
present value makes no difference to validation and walks; if it does not, both report a circle.

* `Component.comparedFields?`, `Component.walkedFields?`: which fields a component hands a value to,
  in validation and on a walk;
* `Schema.HandsOn`, `Schema.Settles`: one step, and that there is an end to the steps;
* `not_settles_of_cycle`, `Schema.LedTo`: a value that comes back is handed on for ever;
* **`visitsWhile_of_settles`**, **`problemsWhile_of_settles`**: the present components do not matter;
* **`visits_of_not_settles`**, **`problems_of_not_settles`**: a circle is found.
-/

namespace ScriptSchema

namespace Component

/-- The fields that a value is compared with: those of its variant, if it chooses a known one. -/
def comparedFields? (c : Component) (v : Value) : Option Fields :=
  match c.choose v with
  | .variant name => (c.variant? name).map Class.fields
  | _ => none

/-- The fields by which a walk goes on below an instance. Instances that are no objects end it. -/
def walkedFields? (c : Component) (v : Value) : Option Fields :=
  if v.isObject then some (c.classAt v).fields else none

theorem comparedFields?_eq_some_iff {c : Component} {v : Value} {fields : Fields} :
    c.comparedFields? v = some fields ↔ ∃ variant chosen,
      c.choose v = .variant variant ∧ c.variant? variant = some chosen ∧
        chosen.fields = fields := by
  unfold comparedFields?
  rcases c.choose v with _ | _ | name
  · exact ⟨nofun, nofun⟩
  · exact ⟨nofun, nofun⟩
  · simp only [Option.map_eq_some_iff, Choice.variant.injEq, exists_and_left, exists_eq_left']

theorem walkedFields?_of_isObject (c : Component) {v : Value} (h : v.isObject = true) :
    c.walkedFields? v = some (c.classAt v).fields := if_pos h

end Component

namespace Schema

variable (S : Schema) (pick : Component → Value → Option Fields) (v : Value)

/-! ## Steps that keep the value -/

/-- The spec that a value is handed on to. Components hand it to the fields that are picked, and
fields to the spec of a lone `self`. -/
def handOn? : Spec → Option Spec
  | .object fields _ => Fields.lone? fields
  | .component kind _ =>
    (S.components.find? kind).bind fun c => (pick c v).map fun fields => .object fields .plain
  | _ => none

/-- The value is handed on from a spec to the next. -/
def HandsOn (spec next : Spec) : Prop := S.handOn? pick v spec = some next

/-- The value is not handed on for ever. -/
def Settles (spec : Spec) : Prop := Acc (fun next spec => S.HandsOn pick v spec next) spec

/-- The components of the present kinds have led to a spec. -/
def LedTo (present : List String) (spec : Spec) : Prop :=
  ∀ kind ∈ present, ∃ info, Relation.TransGen (S.HandsOn pick v) (.component kind info) spec

variable {S pick v}

theorem handsOn_component {kind : String} {c : Component} {fields : Fields}
    (hc : S.components.find? kind = some c) (hf : pick c v = some fields) (info : Info) :
    S.HandsOn pick v (.component kind info) (.object fields .plain) := by
  rw [HandsOn, handOn?, hc, Option.bind_some, hf, Option.map_some]

theorem HandsOn.exists_of_component {kind : String} {info : Info} {next : Spec}
    (h : S.HandsOn pick v (.component kind info) next) :
    ∃ c fields, S.components.find? kind = some c ∧ pick c v = some fields ∧
      next = .object fields .plain := by
  obtain ⟨c, hc, h⟩ := Option.bind_eq_some_iff.1 h
  obtain ⟨fields, hf, rfl⟩ := Option.map_eq_some_iff.1 h
  exact ⟨c, fields, hc, hf, rfl⟩

/-- A walk hands objects on, to the fields of their class. -/
theorem HandsOn.exists_classAt {kind : String} {info : Info} {next : Spec}
    (h : S.HandsOn Component.walkedFields? v (.component kind info) next) :
    ∃ c, S.components.find? kind = some c ∧ v.isObject = true ∧
      next = .object (c.classAt v).fields .plain := by
  obtain ⟨c, fields, hc, hf, rfl⟩ := h.exists_of_component
  obtain ⟨hv, hf⟩ := Option.ite_none_right_eq_some.1 hf
  obtain rfl := Option.some.inj hf
  exact ⟨c, hc, hv, rfl⟩

/-- **A value that comes back to a spec is handed on for ever.** -/
theorem not_settles_of_cycle {spec : Spec} (h : Relation.TransGen (S.HandsOn pick v) spec spec) :
    ¬ S.Settles pick v spec := by
  intro hs
  induction hs with
  | intro spec _ ih =>
    obtain ⟨next, hn, hback⟩ := Relation.TransGen.head'_iff.1 h
    exact ih next hn (Relation.TransGen.tail' hback hn)

theorem ledTo_nil (spec : Spec) : S.LedTo pick v [] spec := nofun

namespace LedTo

variable {present : List String} {spec next : Spec}

theorem tail (h : S.LedTo pick v present spec) (hn : S.HandsOn pick v spec next) :
    S.LedTo pick v present next := fun kind hk =>
  let ⟨info, hs⟩ := h kind hk
  ⟨info, hs.tail hn⟩

theorem component {kind : String} {info : Info}
    (h : S.LedTo pick v present (.component kind info))
    (hn : S.HandsOn pick v (.component kind info) next) :
    S.LedTo pick v (kind :: present) next := by
  intro k hk
  rcases List.mem_cons.1 hk with rfl | hk
  · exact ⟨info, .single hn⟩
  · exact h.tail hn k hk

/-- A component that has led to itself does so for ever. -/
theorem not_settles {kind : String} {info : Info}
    (h : S.LedTo pick v present (.component kind info)) (hk : kind ∈ present) :
    ¬ S.Settles pick v (.component kind info) := by
  obtain ⟨i, hc⟩ := h kind hk
  -- what is said beside the kind does not matter to where the value goes
  obtain ⟨next, hn, hback⟩ := Relation.TransGen.head'_iff.1 hc
  exact not_settles_of_cycle (.head' hn hback)

end LedTo

theorem exists_handsOn_of_not_settles {spec : Spec} (h : ¬ S.Settles pick v spec) :
    ∃ next, S.HandsOn pick v spec next ∧ ¬ S.Settles pick v next :=
  Classical.byContradiction fun hx => h <| .intro spec fun next hn =>
    Classical.byContradiction fun hs => hx ⟨next, hn, hs⟩

/-! ## Walks -/

section Walks

variable {focus : Focus}

/-- **The present components do not matter to a walk**, if the value is not handed on for ever. -/
theorem visitsWhile_of_settles {spec : Spec}
    (h : S.Settles Component.walkedFields? v spec) {present : List String}
    (hp : S.LedTo Component.walkedFields? v present spec) (path : String) :
    S.visitsWhile focus present path spec v = S.visits focus path spec v := by
  unfold visits
  induction h generalizing present with
  | intro spec hs ih =>
    cases spec with
    | terminal t info => rw [visitsWhile_terminal, visitsWhile_terminal]
    | list items info => rw [visitsWhile_list_eq, visitsWhile_list_eq]
    | dictionary keys values info => rw [visitsWhile_dictionary_eq, visitsWhile_dictionary_eq]
    | object fields info =>
      rw [visitsWhile_object, visitsWhile_object, fieldVisitsWhile_eq, fieldVisitsWhile_eq]
      rcases hl : Fields.lone? fields with _ | next
      · rfl
      · exact ih next hl (hp.tail hl)
    | component kind info =>
      have hk : kind ∉ present := fun hk => hp.not_settles hk (.intro _ hs)
      rw [visitsWhile_component_eq, visitsWhile_component_eq]
      congr 1
      rcases hc : S.components.find? kind with _ | c
      · rfl
      · by_cases hv : v.isObject
        · have hn := handsOn_component hc (c.walkedFields?_of_isObject hv) info
          have hall := ih _ hn (hp.component hn)
          have hone := ih _ hn ((ledTo_nil (.component kind info)).component hn)
          rw [visitsWhile_object] at hall hone
          simp only [hv, if_true, hk, if_false, List.not_mem_nil]
          rw [hall, hone]
        · simp only [hv, Bool.false_eq_true, if_false]

/-- A walk goes on below an instance that is not handed on for ever as by the fields alone. -/
theorem visits_component_of_settles {kind : String} {info : Info}
    (h : S.Settles Component.walkedFields? v (.component kind info)) (path : String) :
    S.visits focus path (.component kind info) v =
      (if focus.takesComponent kind then .ofList [⟨path, .component kind info, false, v⟩]
        else .nil) ++
      match S.components.find? kind with
      | none => .fail (.unknownComponent kind)
      | some c =>
        if v.isObject then S.visits focus path (.object (c.classAt v).fields .plain) v
        else .nil := by
  rw [visits, visitsWhile_component_eq]
  congr 1
  rcases hc : S.components.find? kind with _ | c
  · rfl
  · by_cases hv : v.isObject
    · have hn := handsOn_component hc (c.walkedFields?_of_isObject hv) info
      have hone : S.visitsWhile focus [kind] path (.object (c.classAt v).fields .plain) v =
          S.visits focus path (.object (c.classAt v).fields .plain) v :=
        visitsWhile_of_settles (h.inv hn) ((ledTo_nil (.component kind info)).component hn) path
      rw [visitsWhile_object] at hone
      simp only [hv, if_true, List.not_mem_nil, if_false, hone]
    · simp only [hv, Bool.false_eq_true, if_false]

theorem circular_descent :
    S.Descent
      (fun present spec v => ¬ S.Settles Component.walkedFields? v spec →
        ∀ path, ∃ kind, (S.visitsWhile focus present path spec v).error = some (.circular kind))
      (fun present fields v => ¬ S.Settles Component.walkedFields? v (.object fields .plain) →
        ∀ path, ∃ kind,
          (S.fieldVisitsWhile focus present path fields v).error = some (.circular kind)) where
  terminal present t info v h := absurd (.intro _ nofun) h
  list present items info v _ h := absurd (.intro _ nofun) h
  dictionary present keys values info v _ h := absurd (.intro _ nofun) h
  object present fields info v ih h path := by
    rw [visitsWhile_object]
    exact ih (fun hs => h (.intro _ fun next hn => hs.inv hn)) path
  component present kind info v ih h path := by
    obtain ⟨next, hn, hs⟩ := exists_handsOn_of_not_settles h
    obtain ⟨c, hc, hv, rfl⟩ := hn.exists_classAt
    have herror : ∃ k, (if kind ∈ present then (.fail (.circular kind) : Trace Visit)
        else S.fieldVisitsWhile focus (kind :: present) path (c.classAt v).fields v).error =
          some (.circular k) := by
      by_cases hk : kind ∈ present
      · rw [if_pos hk]
        exact ⟨kind, rfl⟩
      · rw [if_neg hk]
        exact ih c hc hk _ hs path
    rw [visitsWhile_component_eq]
    simp only [hc, hv, if_true]
    split
    · rwa [Trace.append_of_none rfl]
    · rwa [Trace.nil_append]
  fields present fields v lone _ h path := by
    obtain ⟨next, hn, hs⟩ := exists_handsOn_of_not_settles h
    rw [fieldVisitsWhile_eq, show Fields.lone? fields = some next from hn]
    exact lone next hn hs path

/-- **A walk reports a circle if a value is handed on for ever.** -/
theorem visits_of_not_settles {spec : Spec} (h : ¬ S.Settles Component.walkedFields? v spec)
    (path : String) : ∃ kind, (S.visits focus path spec v).error = some (.circular kind) :=
  circular_descent.spec [] spec v h path

end Walks

/-! ## Validation -/

section Validation

open Search

variable (d : Script)

/-- **The present components do not matter to validation**, if the value is not handed on for
ever. -/
theorem problemsWhile_of_settles {spec : Spec}
    (h : S.Settles Component.comparedFields? v spec) {present : List String}
    (hp : S.LedTo Component.comparedFields? v present spec) (name : String) :
    S.problemsWhile d present name spec v = S.problems d name spec v := by
  unfold problems
  induction h generalizing present name with
  | intro spec hs ih =>
    cases spec with
    | terminal t info => rw [problemsWhile_terminal, problemsWhile_terminal]
    | list items info => rw [problemsWhile_list_eq, problemsWhile_list_eq]
    | dictionary keys values info =>
      rw [problemsWhile_dictionary_eq, problemsWhile_dictionary_eq]
    | object fields info =>
      rw [problemsWhile_object, problemsWhile_object, fieldProblemsWhile_eq, fieldProblemsWhile_eq]
      rcases hl : Fields.lone? fields with _ | next
      · rfl
      · exact ih next hl (hp.tail hl) _
    | component kind info =>
      have hk : kind ∉ present := fun hk => hp.not_settles hk (.intro _ hs)
      rw [problemsWhile_component_eq, problemsWhile_component_eq]
      rcases hc : S.components.find? kind with _ | c
      · rfl
      · rcases hv : c.choose v with _ | _ | variant
        · simp only [hv]
        · simp only [hv]
        · rcases hx : c.variant? variant with _ | chosen
          · simp only [hv, hx]
          · have hf : c.comparedFields? v = some chosen.fields :=
              Component.comparedFields?_eq_some_iff.2 ⟨variant, chosen, hv, hx, rfl⟩
            have hn := handsOn_component hc hf info
            have hall := ih _ hn (hp.component hn) name
            have hone := ih _ hn ((ledTo_nil (.component kind info)).component hn) name
            rw [problemsWhile_object] at hall hone
            simp only [hv, hx, hk, if_false, List.not_mem_nil, hall, hone]

/-- An instance that is not handed on for ever has the problems of its fields, and those that the
hook finds. -/
theorem problems_component_of_settles {kind : String} {info : Info}
    (h : S.Settles Component.comparedFields? v (.component kind info)) (name : String) :
    S.problems d name (.component kind info) v =
      match S.components.find? kind with
      | none => .error (.unknownComponent kind)
      | some c =>
        match c.choose v with
        | .missing => .ok [.absent (Path.entry name c.tagging.key)]
        | .notString => .ok [.variantNotString name c.tagging.key]
        | .variant variant =>
          match c.variant? variant with
          | none => .ok [.unknownVariant name c.tagging.key variant c.variants.keys]
          | some chosen =>
            both (S.problems d name (.object chosen.fields .plain) v)
              (.ok (hookProblems d chosen.hook v)) := by
  rw [problems, problemsWhile_component_eq]
  rcases hc : S.components.find? kind with _ | c
  · rfl
  · rcases hv : c.choose v with _ | _ | variant
    · simp only [hv]
    · simp only [hv]
    · rcases hx : c.variant? variant with _ | chosen
      · simp only [hv, hx]
      · have hf : c.comparedFields? v = some chosen.fields :=
          Component.comparedFields?_eq_some_iff.2 ⟨variant, chosen, hv, hx, rfl⟩
        have hn := handsOn_component hc hf info
        have hone := problemsWhile_of_settles d (h.inv hn)
          ((ledTo_nil (.component kind info)).component hn) name
        rw [problemsWhile_object] at hone
        simp only [hv, hx, List.not_mem_nil, if_false, hone]

theorem problems_circular_descent :
    S.Descent
      (fun present spec v => ¬ S.Settles Component.comparedFields? v spec →
        ∀ name, ∃ kind, S.problemsWhile d present name spec v = .error (.circular kind))
      (fun present fields v => ¬ S.Settles Component.comparedFields? v (.object fields .plain) →
        ∀ lead, ∃ kind, S.fieldProblemsWhile d present lead fields v = .error (.circular kind)) where
  terminal present t info v h := absurd (.intro _ nofun) h
  list present items info v _ h := absurd (.intro _ nofun) h
  dictionary present keys values info v _ h := absurd (.intro _ nofun) h
  object present fields info v ih h name := by
    rw [problemsWhile_object]
    exact ih (fun hs => h (.intro _ fun next hn => hs.inv hn)) _
  component present kind info v ih h name := by
    obtain ⟨next, hn, hs⟩ := exists_handsOn_of_not_settles h
    obtain ⟨c, fields, hc, hf, rfl⟩ := hn.exists_of_component
    obtain ⟨variant, chosen, hv, hx, rfl⟩ := Component.comparedFields?_eq_some_iff.1 hf
    rw [problemsWhile_component_eq]
    simp only [hc, hv, hx]
    by_cases hk : kind ∈ present
    · rw [if_pos hk]
      exact ⟨kind, rfl⟩
    · obtain ⟨k, he⟩ := ih c hc hk _ hs (name ++ ".")
      rw [if_neg hk, he]
      exact ⟨k, rfl⟩
  fields present fields v lone _ h lead := by
    obtain ⟨next, hn, hs⟩ := exists_handsOn_of_not_settles h
    rw [fieldProblemsWhile_eq, show Fields.lone? fields = some next from hn]
    exact lone next hn hs _

/-- **Validation reports a circle if a value is handed on for ever.** -/
theorem problems_of_not_settles {spec : Spec}
    (h : ¬ S.Settles Component.comparedFields? v spec) (name : String) :
    ∃ kind, S.problems d name spec v = .error (.circular kind) :=
  (problems_circular_descent d).spec [] spec v h name

end Validation

end Schema

end ScriptSchema
