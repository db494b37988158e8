import ScriptSchema.Proofs.Transfer

/-!
# How problems begin

Only a hook is free in what it says. All other problems of values are worded by validation itself,
and those of values that do not fit begin with the label of what the value should be.

* `Labelled`: the problems of one rule have one label;
* `Scalar.labelled_problem?`: the rule of a format;
* `labels`, `Problem.Worded`: what validation says;
* `Problem.Worded.begins`: how it does not begin;
* `Search.Finds`: a search all of whose finds have a property;
* **`worded_classProblems`**: where there are no hooks, all problems are worded by validation.
-/

namespace ScriptSchema

/-! ## The rules of formats -/

/-- If there is a problem, it is that of a value with this label. -/
def Labelled (label : String) (x : Option Problem) : Prop :=
  ∀ p, x = some p → ∃ name shown demand, p = .unfit label name shown demand

namespace Labelled

variable {label : String}

theorem none : Labelled label none := nofun

theorem some {name : String} {shown : Shown} {demand : Demand} :
    Labelled label (some (.unfit label name shown demand)) := by
  rintro _ ⟨⟩
  exact ⟨name, shown, demand, rfl⟩

theorem ite {b : Prop} [Decidable b] {x y : Option Problem} (hx : Labelled label x)
    (hy : Labelled label y) : Labelled label (if b then x else y) := by
  split
  · exact hx
  · exact hy

end Labelled

namespace Scalar

variable (required : Bool) (label name : String) (v : Value)

theorem labelled_nameProblem? : Labelled label (nameProblem? label name v) := by
  unfold nameProblem?
  split
  · exact .ite .some (.ite .some (.ite .none .some))
  · exact .some

theorem labelled_textProblem? : Labelled label (textProblem? required label name v) := by
  unfold textProblem?
  split
  · exact .ite .some .none
  · exact .some

theorem labelled_emailProblem? : Labelled label (emailProblem? required label name v) := by
  unfold emailProblem?
  split
  · rename_i h
    exact h ▸ labelled_textProblem? required label name v
  · split
    · exact .ite .none .some
    · exact .none

theorem labelled_simpleProblem? : Labelled label (simpleProblem? required label name v) := by
  unfold simpleProblem?
  split
  · exact .ite .some .none
  · exact .none
  · exact .none
  · exact .some

theorem labelled_colorProblem? : Labelled label (colorProblem? label name v) := by
  unfold colorProblem?
  split
  · exact .ite .some (.ite .none .some)
  · exact .some

theorem labelled_mediaProblem? : Labelled label (mediaProblem? required label name v) := by
  unfold mediaProblem?
  split
  · exact .ite (.ite .some .none) (.ite .none .some)
  · exact .some

theorem labelled_coordsProblem? : Labelled label (coordsProblem? label name v) := by
  unfold coordsProblem?
  split
  · split
    · exact .ite .some (.ite .some .none)
    · exact .some
  · exact .some

theorem labelled_attributeProblem? : Labelled label (attributeProblem? label name v) := by
  unfold attributeProblem?
  split
  · exact .ite .some (.ite .some (.ite .none .some))
  · exact .some

theorem labelled_lookupProblem? : Labelled label (lookupProblem? label name v) := by
  unfold lookupProblem?
  split
  · refine .ite .some ?_
    split
    · exact .ite .none .some
    · exact .ite .none .some
  · exact .some

theorem labelled_locationProblem? : Labelled label (locationProblem? label name v) := by
  unfold locationProblem?
  exact .ite .none .some

/-- **What a format finds wrong begins with its label.** -/
theorem labelled_problem? (format : Scalar) :
    Labelled format.label (format.problem? required name v) := by
  cases format with
  | string => exact labelled_textProblem? required _ name v
  | markdown => exact labelled_textProblem? required _ name v
  | email => exact labelled_emailProblem? required _ name v
  | simpleValue => exact labelled_simpleProblem? required _ name v
  | integer => exact .ite .none .some
  | number => exact .ite .none .some
  | boolean =>
    cases v with
    | bool b => exact .none
    | _ => exact .some
  | color => exact labelled_colorProblem? _ name v
  | duration => exact .ite .none .some
  | timeOffset => exact .ite .none .some
  | timeShorthand => exact .ite .none .some
  | name => exact labelled_nameProblem? _ name v
  | media => exact labelled_mediaProblem? required _ name v
  | coords => exact labelled_coordsProblem? _ name v
  | simpleAttribute => exact labelled_attributeProblem? _ name v
  | lookupable => exact labelled_lookupProblem? _ name v
  | location => exact labelled_locationProblem? _ name v

end Scalar

/-! ## What validation says -/

/-- What the problems of values that do not fit begin with. -/
def labels : List String :=
  ["Enum", "Reference", "Component reference", "List", "Dictionary"] ++ Scalar.all.map Scalar.label

/-- The problem is worded by validation, and not by a hook. -/
def Problem.Worded : Problem → Prop
  | .unfit label _ _ _ => label ∈ labels
  | .other _ => False
  | _ => True

theorem Scalar.label_mem_labels (format : Scalar) : format.label ∈ labels := by
  cases format <;> decide

theorem take_toList_append {s : String} (h : 3 ≤ s.toList.length) (t : String) :
    (s ++ t).toList.take 3 = s.toList.take 3 := by
  rw [String.toList_append, List.take_append_of_le_length h]

theorem labels_begin : ∀ label ∈ labels,
    3 ≤ label.toList.length ∧ label.toList.take 3 ≠ ['D', 'u', 'p'] := by
  decide

/-- What validation says of a value does not begin like a report of what occurs more than once. -/
theorem Problem.Worded.begins {p : Problem} (h : p.Worded) :
    p.message.toList.take 3 ≠ ['D', 'u', 'p'] := by
  cases p with
  | absent name =>
    change ("Required param \"" ++ name ++ "\" not present.").toList.take 3 ≠ _
    simp
  | noFields =>
    change "Parameters should be an object.".toList.take 3 ≠ _
    simp
  | unexpected name declared =>
    change ("Unexpected param \"" ++ name ++ "\" (expected one of: " ++ _ ++ ").").toList.take 3 ≠ _
    simp
  | unfit label name shown demand =>
    obtain ⟨hl, hne⟩ := labels_begin label h
    change (label ++ " param \"" ++ name ++ "\"" ++ shown.text ++ " " ++
      demand.text).toList.take 3 ≠ _
    simp only [String.append_assoc]
    rwa [take_toList_append hl]
  | variantNotString name key =>
    change ("Component param \"" ++ name ++ "\" property \"" ++ key ++
      "\" should be a string.").toList.take 3 ≠ _
    simp
  | unknownVariant name key variant known =>
    change ("Component param \"" ++ name ++ "\" property \"" ++ key ++ "\" (\"" ++ variant ++
      "\") should be one of: " ++ _ ++ ".").toList.take 3 ≠ _
    simp
  | other text => exact absurd h id

theorem Labelled.worded {label : String} {x : Option Problem} (h : Labelled label x)
    (hl : label ∈ labels) : ∀ p ∈ x.toList, p.Worded := by
  intro p hp
  obtain ⟨name, shown, demand, rfl⟩ := h p (Option.mem_toList.1 hp)
  exact hl

theorem forall_mem_ite {α : Type} {q : α → Prop} {b : Prop} [Decidable b] {as bs : List α}
    (ha : ∀ a ∈ as, q a) (hb : ∀ a ∈ bs, q a) : ∀ a ∈ if b then as else bs, q a := by
  split
  · exact ha
  · exact hb

/-- All that a search finds has a property, if it comes to its end. -/
def Search.Finds {α : Type} (q : α → Prop) (x : Search α) : Prop := ∀ as, x = .ok as → ∀ a ∈ as, q a

namespace Search.Finds

variable {α : Type} {q : α → Prop}

theorem ok {as : List α} (h : ∀ a ∈ as, q a) : Finds q (.ok as) := by
  rintro _ ⟨⟩
  exact h

theorem error (e : SchemaFault) : Finds q (.error e) := nofun

theorem both {x y : Search α} (hx : Finds q x) (hy : Finds q y) : Finds q (Search.both x y) := by
  intro as h
  obtain ⟨here, rest, hhere, hrest, rfl⟩ := Search.both_eq_ok_iff.1 h
  exact List.forall_mem_append.2 ⟨hx here hhere, hy rest hrest⟩

theorem gather {xs : List (Search α)} (h : ∀ x ∈ xs, Finds q x) : Finds q (Search.gather xs) := by
  induction xs with
  | nil => exact .ok (List.forall_mem_nil _)
  | cons x xs ih =>
    rw [List.forall_mem_cons] at h
    exact h.1.both (ih h.2)

end Search.Finds

namespace Schema

variable {S : Schema} (d : Script)

theorem worded_referenceProblems (name collection : String) (special : List Special)
    (nullable : Bool) (v : Value) :
    ∀ p ∈ referenceProblems d name collection special nullable v, p.Worded := by
  have hl : "Reference" ∈ labels := by decide
  unfold referenceProblems
  refine forall_mem_ite (List.forall_mem_nil _) ?_
  have hname := (Scalar.labelled_nameProblem? "Reference" name v).worded hl
  rcases hx : Scalar.nameProblem? "Reference" name v with _ | problem
  · exact forall_mem_ite (List.forall_mem_nil _) (List.forall_mem_singleton.2 hl)
  · rw [hx] at hname
    exact hname

theorem worded_terminalProblems (name : String) (t : Terminal) (required : Bool) (v : Value) :
    Search.Finds Problem.Worded (S.terminalProblems d name t required v) := by
  cases t with
  | scalar format =>
    exact .ok ((format.labelled_problem? required name v).worded format.label_mem_labels)
  | enum options =>
    have hl : "Enum" ∈ labels := by decide
    rw [terminalProblems, enumProblems]
    split
    · exact .error _
    · split
      · exact .ok (List.forall_mem_nil _)
      · exact .ok (List.forall_mem_singleton.2 hl)
  | reference collection special nullable =>
    exact .ok (worded_referenceProblems d name collection special nullable v)
  | instanceId kind =>
    have hl : "Component reference" ∈ labels := by decide
    rw [terminalProblems, instanceProblems]
    split
    · exact .ok (List.forall_mem_singleton.2 hl)
    · rename_i id _
      rcases S.locate d kind id with e | _ | i
      · exact .error e
      · exact .ok (List.forall_mem_singleton.2 hl)
      · exact .ok (List.forall_mem_nil _)

/-- At every level of the descent, all problems are worded by validation. -/
theorem worded_descent (hS : S.Hookless) :
    S.Descent
      (fun present spec v => ∀ name,
        Search.Finds Problem.Worded (S.problemsWhile d present name spec v))
      (fun present fields v => ∀ lead,
        Search.Finds Problem.Worded (S.fieldProblemsWhile d present lead fields v)) where
  terminal present t info v name := by
    rw [problemsWhile_terminal]
    exact worded_terminalProblems d name t info.required v
  list present items info v ih name := by
    have hl : "List" ∈ labels := by decide
    rw [problemsWhile_list_eq]
    rcases hv : v.array? with _ | vs
    · exact .ok (List.forall_mem_singleton.2 hl)
    · refine .gather (List.forall_mem_map.2 fun m hm => ?_)
      exact ih vs hv m.1 (List.fst_mem_of_mem_zipIdx hm) _
  dictionary present keys values info v ih name := by
    have hl : "Dictionary" ∈ labels := by decide
    rw [problemsWhile_dictionary_eq]
    rcases hv : v.object? with _ | es
    · exact .ok (List.forall_mem_singleton.2 hl)
    · refine .gather (List.forall_mem_map.2 fun e he => ?_)
      exact ((ih es hv e he).1 _).both ((ih es hv e he).2 _)
  object present fields info v ih name := by
    rw [problemsWhile_object]
    exact ih _
  component present kind info v ih name := by
    rw [problemsWhile_component_eq]
    rcases hc : S.components.find? kind with _ | c
    · exact .error _
    dsimp only
    rcases c.choose v with _ | _ | variant
    · exact .ok (List.forall_mem_singleton.2 trivial)
    · exact .ok (List.forall_mem_singleton.2 trivial)
    dsimp only
    rcases hx : c.variant? variant with _ | chosen
    · exact .ok (List.forall_mem_singleton.2 trivial)
    dsimp only
    split
    · exact .error _
    · rename_i hk
      rw [hS chosen (.variant hc hx)]
      exact (ih c hc hk chosen.fields _).both (.ok (List.forall_mem_nil _))
  fields present fields v lone parts lead := by
    rw [fieldProblemsWhile_eq]
    rcases hl : fields.lone? with _ | spec
    · dsimp only
      rcases hv : v.object? with _ | es
      · exact .ok (List.forall_mem_singleton.2 trivial)
      · refine .both (.gather (List.forall_mem_map.2 fun f hf => ?_))
          (.ok (List.forall_mem_map.2 fun _ _ => trivial))
        rcases hw : es.lookup f.1 with _ | w
        · exact .ok (forall_mem_ite (List.forall_mem_singleton.2 trivial) (List.forall_mem_nil _))
        · exact parts es hv f hf w hw _
    · exact lone spec hl _

/-- **Where there are no hooks, all problems are worded by validation.** -/
theorem worded_classProblems (hS : S.Hookless) (lead : String) {c : Class} (hc : S.Describes c)
    (v : Value) : Search.Finds Problem.Worded (S.classProblems d lead c v) := by
  rw [classProblems_eq, hS c hc]
  exact ((worded_descent d hS).fieldsOf [] c.fields v lead).both (.ok (List.forall_mem_nil _))

end Schema

end ScriptSchema
