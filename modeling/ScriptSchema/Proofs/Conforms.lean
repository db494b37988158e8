import ScriptSchema.Proofs.Descent

/-!
# What it means to conform

Conforming to a spec is defined here as a relation of its own, without messages, without an order of
the checks, and without a descent that might not end: what has no finite derivation does not
conform. Validation of a value finds nothing if and only if the value conforms, provided that it
comes to its end.

* `IsName`, `Schema.Fits`: values without parts;
* `Schema.Conforms`, `Schema.ConformsTo`: values by specs, and by classes;
* `isNone_problem?`: what a value is called does not matter to its format;
* `terminalProblems_eq_nil_iff`: values without parts that have no problems;
* **`problems_eq_nil_iff`**: values that have no problems;
* **`classProblems_eq_nil_iff`**: the same by a class, with its hook.
-/

namespace ScriptSchema

/-! ## Formats -/

namespace Scalar

variable (required : Bool) (label name name' : String) (v : Value)

theorem isNone_nameProblem? :
    (nameProblem? label name v).isNone = (nameProblem? label name' v).isNone := by
  cases v <;> simp only [nameProblem?, apply_ite Option.isNone, Option.isNone_some]

theorem isNone_emailProblem? :
    (emailProblem? required label name v).isNone =
      (emailProblem? required label name' v).isNone := by
  cases v with
  | string s =>
    unfold emailProblem? textProblem?
    by_cases h : (required && s = "") = true
    · simp only [if_pos h, Option.isNone_some]
    · simp only [if_neg h, apply_ite Option.isNone, Option.isNone_some]
  | _ => rfl

theorem isNone_coordsProblem? :
    (coordsProblem? label name v).isNone = (coordsProblem? label name' v).isNone := by
  unfold coordsProblem?
  split
  · rename_i a b
    rcases a.numeric? with _ | x
    · rfl
    · rcases b.numeric? with _ | y
      · rfl
      · simp only [apply_ite Option.isNone, Option.isNone_some]
  · rfl

theorem isNone_lookupProblem? :
    (lookupProblem? label name v).isNone = (lookupProblem? label name' v).isNone := by
  cases v with
  | string s =>
    unfold lookupProblem?
    dsimp only
    rcases quoteMarks.find? (opensWith s ·) with _ | q <;>
      simp only [apply_ite Option.isNone, Option.isNone_some]
  | _ => rfl

/-- What a value is called does not matter to its format. -/
theorem isNone_problem? (format : Scalar) :
    (format.problem? required name v).isNone = (format.problem? required name' v).isNone := by
  cases format with
  | email => exact isNone_emailProblem? required _ name name' v
  | name => exact isNone_nameProblem? _ name name' v
  | coords => exact isNone_coordsProblem? _ name name' v
  | lookupable => exact isNone_lookupProblem? _ name name' v
  | boolean => cases v <;> rfl
  | _ =>
    cases v <;> simp only [problem?, textProblem?, simpleProblem?, colorProblem?, mediaProblem?,
      attributeProblem?, locationProblem?, apply_ite Option.isNone, Option.isNone_some]

end Scalar

/-- The text starts with a letter and goes on with letters, digits, dashes and underscores. -/
def IsName (s : String) : Prop :=
  startsWithLetter s = true ∧ Grammar.nameChars.accepts s.toList = true

theorem IsName.ne_empty {s : String} (h : IsName s) : s ≠ "" := by
  rintro rfl
  nomatch h.1

theorem nameProblem?_eq_none_iff {label name : String} {v : Value} :
    Scalar.nameProblem? label name v = none ↔ ∃ s, v = .string s ∧ IsName s := by
  cases v with
  | string s =>
    simp only [Scalar.nameProblem?, Value.string.injEq, exists_eq_left', IsName]
    by_cases h : s = ""
    · subst h
      simp [startsWithLetter]
    · by_cases hl : startsWithLetter s = true
      · simp [h, hl]
      · simp [h, hl]
  | _ => simp [Scalar.nameProblem?]

namespace Schema

variable (S : Schema) (d : Script)

/-! ## The relation -/

/-- The value fits the terminal spec, as the value of a field that is required or not. -/
inductive Fits (required : Bool) : Terminal → Value → Prop
  | scalar {format : Scalar} {v : Value} : format.problem? required "" v = none →
    Fits required (.scalar format) v
  | enum {options : List String} {s : String} : s ∈ options →
    Fits required (.enum options) (.string s)
  /-- A reference may hold one of its special values. -/
  | special {collection : String} {special : List Special} {nullable : Bool} {x : Special} :
    x ∈ special → Fits required (.reference collection special nullable) (.string x.value)
  | null {collection : String} {special : List Special} :
    Fits required (.reference collection special true) .null
  | named {collection : String} {special : List Special} {nullable : Bool} {s : String} :
    IsName s → d.defines collection s = true →
    Fits required (.reference collection special nullable) (.string s)
  | instanceId {kind : String} {v : Value} {id : Int} {i : Instance} : v.int64? = some id →
    S.locate d kind id = .ok (some i) → Fits required (.instanceId kind) v

/-- **The value conforms to the spec.** -/
inductive Conforms : Spec → Value → Prop
  | terminal {t : Terminal} {info : Info} {v : Value} : S.Fits d info.required t v →
    Conforms (.terminal t info) v
  | list {items : Spec} {info : Info} {vs : List Value} : (∀ w ∈ vs, Conforms items w) →
    Conforms (.list items info) (.array vs)
  | dictionary {keys values : Spec} {info : Info} {es : Entries Value} :
    (∀ e ∈ es, Conforms keys (.string e.1)) → (∀ e ∈ es, Conforms values e.2) →
    Conforms (.dictionary keys values info) (.object es)
  /-- A lone `self` describes the value itself. -/
  | lone {fields : Fields} {info : Info} {spec : Spec} {v : Value} : fields.lone? = some spec →
    Conforms spec v → Conforms (.object fields info) v
  | object {fields : Fields} {info : Info} {es : Entries Value} : fields.lone? = none →
    (∀ f ∈ fields, f.2.required = true → es.has f.1 = true) →
    (∀ f ∈ fields, ∀ w, es.lookup f.1 = some w → Conforms f.2 w) →
    (∀ key ∈ es.keys, fields.has key = true) → Conforms (.object fields info) (.object es)
  /-- The value chooses a variant, and conforms to the class of the variant. -/
  | component {kind variant : String} {info : Info} {c : Component} {chosen : Class} {v : Value} :
    S.components.find? kind = some c → c.choose v = .variant variant →
    c.variant? variant = some chosen → Conforms (.object chosen.fields .plain) v →
    (∀ hook, chosen.hook = some hook → hook d v = []) → Conforms (.component kind info) v

/-- **The value conforms to the class**: to its fields, and its hook has nothing to say. -/
structure ConformsTo (c : Class) (v : Value) : Prop where
  fields : S.Conforms d (.object c.fields .plain) v
  hook : ∀ hook, c.hook = some hook → hook d v = []

variable {S d}

theorem conforms_terminal_iff {t : Terminal} {info : Info} {v : Value} :
    S.Conforms d (.terminal t info) v ↔ S.Fits d info.required t v :=
  ⟨fun h => by cases h; assumption, .terminal⟩

theorem conforms_list_iff {items : Spec} {info : Info} {v : Value} :
    S.Conforms d (.list items info) v ↔
      ∃ vs, v.array? = some vs ∧ ∀ w ∈ vs, S.Conforms d items w := by
  constructor
  · rintro ⟨⟩
    rename_i vs h
    exact ⟨vs, rfl, h⟩
  · rintro ⟨vs, hv, h⟩
    obtain rfl := array_of_array? hv
    exact .list h

theorem conforms_dictionary_iff {keys values : Spec} {info : Info} {v : Value} :
    S.Conforms d (.dictionary keys values info) v ↔
      ∃ es, v.object? = some es ∧
        ∀ e ∈ es, S.Conforms d keys (.string e.1) ∧ S.Conforms d values e.2 := by
  constructor
  · rintro ⟨⟩
    rename_i es hk hv
    exact ⟨es, rfl, fun e he => ⟨hk e he, hv e he⟩⟩
  · rintro ⟨es, hv, h⟩
    obtain rfl := object_of_object? hv
    exact .dictionary (fun e he => (h e he).1) fun e he => (h e he).2

theorem conforms_lone_iff {fields : Fields} {info : Info} {spec : Spec} {v : Value}
    (hl : fields.lone? = some spec) :
    S.Conforms d (.object fields info) v ↔ S.Conforms d spec v := by
  constructor
  · intro h
    cases h with
    | lone hl' h =>
      obtain rfl := Option.some.inj (hl.symm.trans hl')
      exact h
    | object hl' => nomatch hl.symm.trans hl'
  · exact .lone hl

theorem conforms_object_iff {fields : Fields} {info : Info} {v : Value}
    (hl : fields.lone? = none) :
    S.Conforms d (.object fields info) v ↔
      ∃ es, v.object? = some es ∧
        (∀ f ∈ fields, f.2.required = true → es.has f.1 = true) ∧
        (∀ f ∈ fields, ∀ w, es.lookup f.1 = some w → S.Conforms d f.2 w) ∧
        ∀ key ∈ es.keys, fields.has key = true := by
  constructor
  · intro h
    cases h with
    | lone hl' => nomatch hl.symm.trans hl'
    | object _ hr hw hk => exact ⟨_, rfl, hr, hw, hk⟩
  · rintro ⟨es, hv, hr, hw, hk⟩
    obtain rfl := object_of_object? hv
    exact .object hl hr hw hk

theorem conforms_component_iff {kind : String} {info : Info} {v : Value} :
    S.Conforms d (.component kind info) v ↔
      ∃ c variant chosen, S.components.find? kind = some c ∧ c.choose v = .variant variant ∧
        c.variant? variant = some chosen ∧ S.ConformsTo d chosen v := by
  constructor
  · intro h
    cases h with
    | component hc hv hx hf hh => exact ⟨_, _, _, hc, hv, hx, hf, hh⟩
  · rintro ⟨c, variant, chosen, hc, hv, hx, hf, hh⟩
    exact .component hc hv hx hf hh

/-! ## Values without parts -/

theorem enumProblems_eq_nil_iff {name : String} {options : List String} {required : Bool}
    {v : Value} : enumProblems name options v = .ok [] ↔ S.Fits d required (.enum options) v := by
  unfold enumProblems
  by_cases he : options.isEmpty = true
  · rw [if_pos he]
    refine ⟨nofun, fun h => ?_⟩
    cases h with
    | enum hs => nomatch List.isEmpty_iff.1 he ▸ hs
  · rw [if_neg he]
    cases v with
    | string s =>
      by_cases hs : s ∈ options
      · simp [Value.string?, hs, Fits.enum hs]
      · have hn : ¬ S.Fits d required (.enum options) (.string s) := fun h => by
          cases h with
          | enum hs' => exact hs hs'
        simp [Value.string?, hs, hn]
    | _ => exact ⟨nofun, nofun⟩

/-- References by what they hold if it is no special value: the name of a resource. -/
theorem namedProblems_eq_nil_iff {name collection s : String} {special : List Special}
    {nullable : Bool} (hs : special.any (·.value == s) = false) :
    referenceProblems d name collection special nullable (.string s) = [] ↔
      IsName s ∧ d.defines collection s = true := by
  unfold referenceProblems
  simp only [hs, Bool.false_eq_true, if_false, Value.string?, Option.getD_some]
  rcases hn : Scalar.nameProblem? "Reference" name (.string s) with _ | problem
  · obtain ⟨s', hs', hn'⟩ := nameProblem?_eq_none_iff.1 hn
    obtain rfl := Value.string.inj hs'
    by_cases hd : d.defines collection s = true
    · simp [hd, hn']
    · simp [hd]
  · refine ⟨nofun, fun h => ?_⟩
    nomatch hn.symm.trans (nameProblem?_eq_none_iff.2 ⟨s, rfl, h.1⟩)

theorem referenceProblems_eq_nil_iff (required : Bool) {name collection : String}
    {special : List Special} {nullable : Bool} {v : Value} :
    referenceProblems d name collection special nullable v = [] ↔
      S.Fits d required (.reference collection special nullable) v := by
  cases v with
  | string s =>
    rcases hs : special.any (·.value == s) with _ | _
    · rw [namedProblems_eq_nil_iff hs]
      constructor
      · rintro ⟨hn, hd⟩
        exact .named hn hd
      · intro h
        cases h with
        | special hx => exact absurd (beq_self_eq_true _) (List.any_eq_false.1 hs _ hx)
        | named hn hd => exact ⟨hn, hd⟩
    · obtain ⟨x, hx, he⟩ := List.any_eq_true.1 hs
      obtain rfl : x.value = s := eq_of_beq he
      simp only [referenceProblems, hs, if_true, true_iff]
      exact .special hx
  | null =>
    cases nullable with
    | true => exact ⟨fun _ => .null, fun _ => rfl⟩
    | false => exact ⟨nofun, nofun⟩
  | _ => exact ⟨nofun, nofun⟩

theorem instanceProblems_eq_nil_iff {name kind : String} {required : Bool} {v : Value} :
    S.instanceProblems d name kind v = .ok [] ↔ S.Fits d required (.instanceId kind) v := by
  unfold instanceProblems
  rcases hv : v.int64? with _ | id
  · refine ⟨nofun, fun h => ?_⟩
    cases h with
    | instanceId hv' => nomatch hv.symm.trans hv'
  · dsimp only
    rcases hl : S.locate d kind id with e | _ | i
    · refine ⟨nofun, fun h => ?_⟩
      cases h with
      | instanceId hv' hl' =>
        obtain rfl := Option.some.inj (hv.symm.trans hv')
        nomatch hl.symm.trans hl'
    · refine ⟨nofun, fun h => ?_⟩
      cases h with
      | instanceId hv' hl' =>
        obtain rfl := Option.some.inj (hv.symm.trans hv')
        nomatch hl.symm.trans hl'
    · exact ⟨fun _ => .instanceId hv hl, fun _ => rfl⟩

/-- **A value without parts has no problems if and only if it fits.** -/
theorem terminalProblems_eq_nil_iff {name : String} {t : Terminal} {required : Bool} {v : Value} :
    S.terminalProblems d name t required v = .ok [] ↔ S.Fits d required t v := by
  cases t with
  | scalar format =>
    have h : (format.problem? required name v).toList = [] ↔
        format.problem? required "" v = none := by
      rw [Option.toList_eq_nil_iff, ← Option.isNone_iff_eq_none, ← Option.isNone_iff_eq_none,
        Scalar.isNone_problem? required name ""]
    rw [terminalProblems, Except.ok.injEq, h]
    exact ⟨.scalar, fun h => by cases h; assumption⟩
  | enum options => exact enumProblems_eq_nil_iff
  | reference collection special nullable =>
    rw [terminalProblems, Except.ok.injEq, referenceProblems_eq_nil_iff required]
  | instanceId kind => exact instanceProblems_eq_nil_iff

/-! ## Values with parts -/

theorem unexpectedProblems_eq_nil_iff {lead : String} {fields : Fields} {es : Entries Value} :
    unexpectedProblems lead fields es = [] ↔ ∀ key ∈ es.keys, fields.has key = true := by
  rw [unexpectedProblems, List.map_eq_nil_iff, List.filter_eq_nil_iff]
  simp

theorem hookProblems_eq_nil_iff {hook : Option Hook} {v : Value} :
    hookProblems d hook v = [] ↔ ∀ h, hook = some h → h d v = [] := by
  cases hook with
  | none => exact ⟨nofun, fun _ => rfl⟩
  | some h => simp [hookProblems]

/-- A field that may be absent has no problems if and only if it is there when it must be, and what
is there conforms. -/
theorem entryProblems_eq_nil_iff {name : String} {spec : Spec} {w : Option Value}
    (h : ∀ v, w = some v → (S.problems d name spec v = .ok [] ↔ S.Conforms d spec v)) :
    S.entryProblems d name spec w = .ok [] ↔
      (spec.required = true → w.isSome = true) ∧ ∀ v, w = some v → S.Conforms d spec v := by
  cases w with
  | none => simp [entryProblems]
  | some v =>
    rw [entryProblems, h v rfl]
    simp

open Search in
/-- At every level of the descent, no problem is found if and only if the value conforms. -/
theorem conforms_descent :
    S.Descent
      (fun present spec v => ∀ name, Completes (S.problemsWhile d present name spec v) →
        (S.problemsWhile d present name spec v = .ok [] ↔ S.Conforms d spec v))
      (fun present fields v => ∀ info lead,
        Completes (S.fieldProblemsWhile d present lead fields v) →
          (S.fieldProblemsWhile d present lead fields v = .ok [] ↔
            S.Conforms d (.object fields info) v)) where
  terminal present t info v name _ := by
    rw [problemsWhile_terminal, terminalProblems_eq_nil_iff, conforms_terminal_iff]
  list present items info v ih name hx := by
    rw [problemsWhile_list_eq] at hx ⊢
    rw [conforms_list_iff]
    rcases hv : v.array? with _ | vs
    · simp
    · simp only [hv, gather_completes_iff, List.forall_mem_map] at hx
      simp only [gather_eq_nil_iff, List.forall_mem_map, Option.some.injEq, exists_eq_left']
      rw [← forall_mem_zipIdx (p := S.Conforms d items)]
      refine forall_congr' fun m => forall_congr' fun hm => ?_
      exact ih vs hv m.1 (List.fst_mem_of_mem_zipIdx hm) _ (hx m hm)
  dictionary present keys values info v ih name hx := by
    rw [problemsWhile_dictionary_eq] at hx ⊢
    rw [conforms_dictionary_iff]
    rcases hv : v.object? with _ | es
    · simp
    · simp only [hv, gather_completes_iff, both_completes_iff, List.forall_mem_map] at hx
      simp only [gather_eq_nil_iff, both_eq_nil_iff, List.forall_mem_map, Option.some.injEq,
        exists_eq_left']
      refine forall_congr' fun e => forall_congr' fun he => ?_
      exact and_congr ((ih es hv e he).1 _ (hx e he).1) ((ih es hv e he).2 _ (hx e he).2)
  object present fields info v ih name hx := by
    rw [problemsWhile_object] at hx ⊢
    exact ih info _ hx
  component present kind info v ih name hx := by
    rw [problemsWhile_component_eq] at hx ⊢
    rw [conforms_component_iff]
    rcases hc : S.components.find? kind with _ | c
    · simp
    simp only [hc, Option.some.injEq, exists_and_left, exists_eq_left'] at hx ⊢
    rcases hv : c.choose v with _ | _ | variant
    · simp
    · simp
    simp only [hv, Choice.variant.injEq, exists_eq_left'] at hx ⊢
    rcases hn : c.variant? variant with _ | chosen
    · simp
    simp only [hn, Option.some.injEq, exists_eq_left'] at hx ⊢
    by_cases hk : kind ∈ present
    · rw [if_pos hk] at hx
      obtain ⟨_, hx⟩ := hx
      contradiction
    · rw [if_neg hk] at hx ⊢
      rw [both_eq_nil_iff, ih c hc hk _ .plain _ (both_completes_iff.1 hx).1, Except.ok.injEq,
        hookProblems_eq_nil_iff]
      exact ⟨fun h => ⟨h.1, h.2⟩, fun h => ⟨h.1, h.2⟩⟩
  fields present fields v lone parts info lead hx := by
    rw [fieldProblemsWhile_eq] at hx ⊢
    rcases hl : fields.lone? with _ | spec
    · simp only [hl] at hx ⊢
      rw [conforms_object_iff hl]
      rcases hv : v.object? with _ | es
      · simp
      simp only [hv, both_completes_iff, gather_completes_iff, List.forall_mem_map] at hx
      have hf (f) (hf : f ∈ fields) := entryProblems_eq_nil_iff (S := S) (d := d)
        fun w hw => parts es hv f hf w hw (lead ++ f.1) (by
          have h := hx.1 f hf
          rwa [hw] at h)
      simp only [both_eq_nil_iff, gather_eq_nil_iff, List.forall_mem_map, Except.ok.injEq,
        unexpectedProblems_eq_nil_iff, Option.some.injEq, exists_eq_left']
      constructor
      · rintro ⟨he, hk⟩
        exact ⟨fun f hm => ((hf f hm).1 (he f hm)).1, fun f hm => ((hf f hm).1 (he f hm)).2, hk⟩
      · rintro ⟨hr, hw, hk⟩
        exact ⟨fun f hm => (hf f hm).2 ⟨hr f hm, hw f hm⟩, hk⟩
    · simp only [hl] at hx ⊢
      rw [conforms_lone_iff hl]
      exact lone spec hl _ hx

/-- **A value has no problems if and only if it conforms**, provided that the search for problems
comes to its end. -/
theorem problems_eq_nil_iff {name : String} {spec : Spec} {v : Value}
    (hx : Search.Completes (S.problems d name spec v)) :
    S.problems d name spec v = .ok [] ↔ S.Conforms d spec v :=
  conforms_descent.spec [] spec v name hx

/-- **A value has no problems by a class if and only if it conforms to the class.** -/
theorem classProblems_eq_nil_iff {lead : String} {c : Class} {v : Value}
    (hx : Search.Completes (S.classProblems d lead c v)) :
    S.classProblems d lead c v = .ok [] ↔ S.ConformsTo d c v := by
  rw [classProblems_eq] at hx ⊢
  rw [Search.both_eq_nil_iff, Except.ok.injEq, hookProblems_eq_nil_iff,
    conforms_descent.fieldsOf [] c.fields v .plain lead (Search.both_completes_iff.1 hx).1]
  exact ⟨fun h => ⟨h.1, h.2⟩, fun h => ⟨h.1, h.2⟩⟩

end Schema

end ScriptSchema
