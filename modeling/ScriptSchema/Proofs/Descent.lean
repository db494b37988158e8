import ScriptSchema.Problem.Value
import ScriptSchema.Proofs.Search

/-!
# Descending into a value

Validation and walks descend into a value in the same way: to its parts, and at a component or a
field named `self` to another description of the same value. An induction along this descent is
stated once, and what validation and walks do at one level is stated as an equation for each.

* `Schema.Descent`: what has to be shown at every level;
* **`Descent.spec`**, **`Descent.fieldsOf`**: the induction;
* `problemsWhile_list_eq`, …, `fieldProblemsWhile_eq`: the problems of a value from those of its
  parts;
* `problemsWhile_list_eq_nil_iff`, …: the values without problems;
* `visitsWhile_list_eq`, …, `fieldVisitsWhile_eq`: the visits of a value from those of its parts.
-/

namespace ScriptSchema

/-! ## The parts of a value -/

theorem array_of_array? {v : Value} {vs : List Value} (h : v.array? = some vs) : .array vs = v := by
  cases v with
  | array vs' => rw [Option.some.inj h]
  | _ => nomatch h

theorem object_of_object? {v : Value} {es : Entries Value} (h : v.object? = some es) :
    .object es = v := by
  cases v with
  | object es' => rw [Option.some.inj h]
  | _ => nomatch h

theorem sizeOf_item {v w : Value} {vs : List Value} (hv : v.array? = some vs) (hw : w ∈ vs) :
    sizeOf w < sizeOf v := by
  obtain rfl := array_of_array? hv
  have := List.sizeOf_lt_of_mem hw
  rw [Value.array.sizeOf_spec]
  omega

theorem sizeOf_entry {v : Value} {es : Entries Value} {e : String × Value}
    (hv : v.object? = some es) (he : e ∈ es) :
    sizeOf (Value.string e.1) < sizeOf v ∧ sizeOf e.2 < sizeOf v := by
  obtain rfl := object_of_object? hv
  obtain ⟨k, w⟩ := e
  have := List.sizeOf_lt_of_mem he
  rw [Prod.mk.sizeOf_spec] at this
  rw [Value.object.sizeOf_spec, Value.string.sizeOf_spec]
  dsimp only
  omega

namespace Schema

variable (S : Schema)

/-! ## Induction -/

/-- What shows a property of all specs with values, and of all fields with values, while components
of the present kinds describe the value. A component may be taken as not present: otherwise the
descent ends there. -/
structure Descent (P : List String → Spec → Value → Prop)
    (F : List String → Fields → Value → Prop) : Prop where
  terminal : ∀ present t info v, P present (.terminal t info) v
  list : ∀ present items info v, (∀ vs, v.array? = some vs → ∀ w ∈ vs, P [] items w) →
    P present (.list items info) v
  dictionary : ∀ present keys values info v,
    (∀ es, v.object? = some es → ∀ e ∈ es, P [] keys (.string e.1) ∧ P [] values e.2) →
    P present (.dictionary keys values info) v
  object : ∀ present fields info v, F present fields v → P present (.object fields info) v
  component : ∀ present kind info v,
    (∀ c, S.components.find? kind = some c → kind ∉ present →
      ∀ fields, F (kind :: present) fields v) →
    P present (.component kind info) v
  fields : ∀ present fields v, (∀ spec, fields.lone? = some spec → P present spec v) →
    (∀ es, v.object? = some es → ∀ f ∈ fields, ∀ w, es.lookup f.1 = some w → P [] f.2 w) →
    F present fields v

namespace Descent

variable {S} {P : List String → Spec → Value → Prop} {F : List String → Fields → Value → Prop}

mutual

/-- **The property holds of every spec with every value.** -/
theorem spec (h : S.Descent P F) (present : List String) (spec : Spec) (v : Value) :
    P present spec v :=
  match spec with
  | .terminal t info => h.terminal present t info v
  | .list items info => h.list present items info v fun _ hv w hw =>
    have := sizeOf_item hv hw
    Descent.spec h [] items w
  | .dictionary keys values info => h.dictionary present keys values info v fun _ hv e he =>
    have := (sizeOf_entry hv he).1
    have := (sizeOf_entry hv he).2
    ⟨Descent.spec h [] keys (.string e.1), Descent.spec h [] values e.2⟩
  | .object fields info => h.object present fields info v (Descent.fieldsOf h present fields v)
  | .component kind info => h.component present kind info v fun c hc hk fields =>
    have := S.idle_cons_lt hc hk
    Descent.fieldsOf h (kind :: present) fields v
termination_by (sizeOf v, S.idle present, sizeOf spec)

/-- **The property holds of all fields with every value.** -/
theorem fieldsOf (h : S.Descent P F) (present : List String) (fields : Fields) (v : Value) :
    F present fields v :=
  h.fields present fields v
    (fun spec hl =>
      have := sizeOf_lone hl
      Descent.spec h present spec v)
    fun _ hv f _ w hw =>
      have := (sizeOf_entry hv (mem_of_lookup hw)).2
      Descent.spec h [] f.2 w
termination_by (sizeOf v, S.idle present, sizeOf fields)

end

end Descent

/-! ## Problems, level by level -/

section Problems

open Search

variable (d : Script) (present : List String) (name lead : String)

theorem itemProblems_eq (items : Spec) (index : Nat) (vs : List Value) :
    S.itemProblems d name items index vs =
      gather ((vs.zipIdx index).map fun m => S.problems d (Path.item name m.2) items m.1) := by
  induction vs generalizing index with
  | nil => rw [itemProblems]; rfl
  | cons v vs ih => rw [itemProblems_cons, ih]; rfl

theorem pairProblems_eq (keys values : Spec) (es : Entries Value) :
    S.pairProblems d name keys values es =
      gather (es.map fun e => both (S.problems d (Path.entry name e.1) keys (.string e.1))
        (S.problems d (Path.entry name e.1) values e.2)) := by
  induction es with
  | nil => rw [pairProblems]; rfl
  | cons e es ih =>
    rw [List.map_cons, gather, both_assoc, ← ih]
    rw [pairProblems_cons]
    rcases S.problems d (Path.entry name e.1) keys (.string e.1) with _ | as
    · rfl
    · rcases S.problems d (Path.entry name e.1) values e.2 with _ | bs
      · rfl
      · rcases S.pairProblems d name keys values es with _ | cs
        · rfl
        · exact congrArg Except.ok (List.append_assoc as bs cs)

theorem declaredProblems_eq (fields : Fields) (es : Entries Value) :
    S.declaredProblems d lead fields es =
      gather (fields.map fun f => S.entryProblems d (lead ++ f.1) f.2 (es.lookup f.1)) := by
  induction fields with
  | nil => rw [declaredProblems]; rfl
  | cons f fields ih => rw [declaredProblems_cons, ih]; rfl

theorem problemsWhile_list_eq (items : Spec) (info : Info) (v : Value) :
    S.problemsWhile d present name (.list items info) v =
      match v.array? with
      | some vs => gather (vs.zipIdx.map fun m => S.problems d (Path.item name m.2) items m.1)
      | none => .ok [.unfit "List" name .nothing .anArray] := by
  cases v with
  | array vs => rw [problemsWhile_list, itemProblems_eq]; rfl
  | _ => rw [problemsWhile.eq_def]; rfl

theorem problemsWhile_dictionary_eq (keys values : Spec) (info : Info) (v : Value) :
    S.problemsWhile d present name (.dictionary keys values info) v =
      match v.object? with
      | some es => gather (es.map fun e =>
          both (S.problems d (Path.entry name e.1) keys (.string e.1))
            (S.problems d (Path.entry name e.1) values e.2))
      | none => .ok [.unfit "Dictionary" name .nothing .anObject] := by
  cases v with
  | object es => rw [problemsWhile_dictionary, pairProblems_eq]; rfl
  | _ => rw [problemsWhile.eq_def]; rfl

theorem problemsWhile_component_eq (kind : String) (info : Info) (v : Value) :
    S.problemsWhile d present name (.component kind info) v =
      match S.components.find? kind with
      | none => .error (.unknownComponent kind)
      | some c =>
        match c.choose v with
        | .missing => .ok [.absent (Path.entry name c.tagging.key)]
        | .notString => .ok [.variantNotString name c.tagging.key]
        | .variant variant =>
          match c.variant? variant with
          | none => .ok [.unknownVariant name c.tagging.key variant c.variants.keys]
          | some chosen =>
            if kind ∈ present then .error (.circular kind)
            else both (S.fieldProblemsWhile d (kind :: present) (name ++ ".") chosen.fields v)
              (.ok (hookProblems d chosen.hook v)) := by
  rw [problemsWhile]
  split
  · rename_i hc
    rw [hc]
  · rename_i c hc
    simp only [hc]
    rcases c.choose v with _ | _ | variant
    · rfl
    · rfl
    · dsimp only
      rcases c.variant? variant with _ | chosen
      · rfl
      · dsimp only
        split <;> rfl

theorem fieldProblemsWhile_eq (fields : Fields) (v : Value) :
    S.fieldProblemsWhile d present lead fields v =
      match fields.lone? with
      | some spec => S.problemsWhile d present (loneName lead) spec v
      | none =>
        match v.object? with
        | some es => both
            (gather (fields.map fun f => S.entryProblems d (lead ++ f.1) f.2 (es.lookup f.1)))
            (.ok (unexpectedProblems lead fields es))
        | none => .ok [.noFields] := by
  rcases hl : fields.lone? with _ | spec
  · cases v with
    | object es =>
      rw [fieldProblemsWhile_object S d present hl, declaredProblems_eq]
      rfl
    | _ =>
      rw [fieldProblemsWhile.eq_def]
      split
      · rename_i h
        rw [hl] at h
        contradiction
      · rfl
  · exact fieldProblemsWhile_lone S d present hl lead v

/-! ### Without problems -/

theorem problemsWhile_list_eq_nil_iff {items : Spec} {info : Info} {v : Value} :
    S.problemsWhile d present name (.list items info) v = .ok [] ↔
      ∃ vs, v.array? = some vs ∧
        ∀ m ∈ vs.zipIdx, S.problems d (Path.item name m.2) items m.1 = .ok [] := by
  rw [problemsWhile_list_eq]
  rcases v.array? with _ | vs
  · exact ⟨nofun, nofun⟩
  · simp only [gather_eq_nil_iff, List.forall_mem_map, Option.some.injEq, exists_eq_left']

theorem problemsWhile_dictionary_eq_nil_iff {keys values : Spec} {info : Info} {v : Value} :
    S.problemsWhile d present name (.dictionary keys values info) v = .ok [] ↔
      ∃ es, v.object? = some es ∧ ∀ e ∈ es,
        S.problems d (Path.entry name e.1) keys (.string e.1) = .ok [] ∧
        S.problems d (Path.entry name e.1) values e.2 = .ok [] := by
  rw [problemsWhile_dictionary_eq]
  rcases v.object? with _ | es
  · exact ⟨nofun, nofun⟩
  · simp only [gather_eq_nil_iff, both_eq_nil_iff, List.forall_mem_map, Option.some.injEq,
      exists_eq_left']

theorem problemsWhile_component_eq_nil_iff {kind : String} {info : Info} {v : Value} :
    S.problemsWhile d present name (.component kind info) v = .ok [] ↔
      ∃ c variant chosen, S.components.find? kind = some c ∧ c.choose v = .variant variant ∧
        c.variant? variant = some chosen ∧ kind ∉ present ∧
        S.fieldProblemsWhile d (kind :: present) (name ++ ".") chosen.fields v = .ok [] ∧
        hookProblems d chosen.hook v = [] := by
  rw [problemsWhile_component_eq]
  rcases S.components.find? kind with _ | c
  · simp
  simp only [Option.some.injEq, exists_and_left, exists_eq_left']
  rcases c.choose v with _ | _ | variant
  · simp
  · simp
  simp only [Choice.variant.injEq, exists_eq_left']
  rcases c.variant? variant with _ | chosen
  · simp
  simp only [Option.some.injEq, exists_eq_left']
  by_cases hk : kind ∈ present
  · rw [if_pos hk]
    simp [hk]
  · rw [if_neg hk, both_eq_nil_iff, Except.ok.injEq]
    exact ⟨fun h => ⟨hk, h⟩, fun h => h.2⟩

theorem fieldProblemsWhile_object_eq_nil_iff {fields : Fields} (hl : fields.lone? = none)
    {v : Value} :
    S.fieldProblemsWhile d present lead fields v = .ok [] ↔
      ∃ es, v.object? = some es ∧
        (∀ f ∈ fields, S.entryProblems d (lead ++ f.1) f.2 (es.lookup f.1) = .ok []) ∧
        unexpectedProblems lead fields es = [] := by
  rw [fieldProblemsWhile_eq, hl]
  rcases v.object? with _ | es
  · exact ⟨nofun, nofun⟩
  · simp only [both_eq_nil_iff, gather_eq_nil_iff, List.forall_mem_map, Except.ok.injEq,
      Option.some.injEq, exists_eq_left']

theorem classProblems_eq (c : Class) (v : Value) :
    S.classProblems d lead c v =
      both (S.fieldProblemsWhile d [] lead c.fields v) (.ok (hookProblems d c.hook v)) := rfl

end Problems

/-! ## Visits, level by level -/

section Visits

variable (focus : Focus) (present : List String) (path : String)

theorem itemVisits_eq (items : Spec) (index : Nat) (vs : List Value) :
    S.itemVisits focus path items index vs =
      .each (fun m => S.visits focus (Path.item path m.2) items m.1) (vs.zipIdx index) := by
  induction vs generalizing index with
  | nil => rw [itemVisits]; rfl
  | cons v vs ih => rw [itemVisits_cons, ih]; rfl

theorem entryVisits_eq (values : Spec) (es : Entries Value) :
    S.entryVisits focus path values es =
      .each (fun e => S.visits focus (Path.entry path e.1) values e.2) es := by
  induction es with
  | nil => rw [entryVisits]; rfl
  | cons e es ih => rw [entryVisits_cons, ih]; rfl

theorem declaredVisits_eq (fields : Fields) (es : Entries Value) :
    S.declaredVisits focus path fields es =
      .each (fun f => (es.lookup f.1).elim .nil (S.visits focus (Path.field path f.1) f.2))
        fields := by
  induction fields with
  | nil => rw [declaredVisits]; rfl
  | cons f fields ih => rw [declaredVisits_cons, ih]; rfl

theorem visitsWhile_list_eq (items : Spec) (info : Info) (v : Value) :
    S.visitsWhile focus present path (.list items info) v =
      match v.array? with
      | some vs => .each (fun m => S.visits focus (Path.item path m.2) items m.1) vs.zipIdx
      | none => .nil := by
  cases v with
  | array vs => rw [visitsWhile_list, itemVisits_eq]; rfl
  | _ => rw [visitsWhile.eq_def]; rfl

theorem visitsWhile_dictionary_eq (keys values : Spec) (info : Info) (v : Value) :
    S.visitsWhile focus present path (.dictionary keys values info) v =
      match v.object? with
      | some es => keyVisits focus path keys es ++
          .each (fun e => S.visits focus (Path.entry path e.1) values e.2) es
      | none => .nil := by
  cases v with
  | object es => rw [visitsWhile_dictionary, entryVisits_eq]; rfl
  | _ => rw [visitsWhile.eq_def]; rfl

theorem visitsWhile_component_eq (kind : String) (info : Info) (v : Value) :
    S.visitsWhile focus present path (.component kind info) v =
      (if focus.takesComponent kind then .ofList [⟨path, .component kind info, false, v⟩]
        else .nil) ++
      match S.components.find? kind with
      | none => .fail (.unknownComponent kind)
      | some c =>
        if v.isObject then
          if kind ∈ present then .fail (.circular kind)
          else S.fieldVisitsWhile focus (kind :: present) path (c.classAt v).fields v
        else .nil := by
  rw [visitsWhile]
  congr 1
  split
  · rename_i hc
    rw [hc]
  · rename_i c hc
    simp only [hc]
    cases v.isObject
    · rfl
    · by_cases hk : kind ∈ present
      · simp [hk]
      · simp [hk]

theorem fieldVisitsWhile_eq (fields : Fields) (v : Value) :
    S.fieldVisitsWhile focus present path fields v =
      match fields.lone? with
      | some spec => S.visitsWhile focus present path spec v
      | none =>
        match v.object? with
        | some es =>
          .each (fun f => (es.lookup f.1).elim .nil (S.visits focus (Path.field path f.1) f.2))
            fields
        | none => .nil := by
  rcases hl : fields.lone? with _ | spec
  · cases v with
    | object es =>
      rw [fieldVisitsWhile_object S focus present path hl, declaredVisits_eq]
      rfl
    | _ =>
      rw [fieldVisitsWhile.eq_def]
      split
      · rename_i h
        rw [hl] at h
        contradiction
      · rfl
  · exact fieldVisitsWhile_lone S focus present path hl v

end Visits

end Schema

end ScriptSchema
