import ScriptSchema.Proofs.Deletion
import ScriptSchema.Proofs.HandOn

/-!
# When validation and walks return

Comparing a value with a spec calls for further comparisons, of its parts or of the value itself
with the next spec, and looking for an instance calls for walks through the whole script. A call
returns if the chain of calls below it is finite. Here this is told from its outcome.

* `Task`, `Call`, `Schema.Calls`, `Schema.Returns`: calls, those that they make, and those that
  return;
* `Schema.Ends`: no fault is the outcome of a call;
* `error_list`, `completes_list`, …: a level ends well if all calls that it makes do;
* **`ends_of_returns`**, **`returns_of_ends`**: a call returns if and only if it ends well.
-/

namespace ScriptSchema

/-! ## Traces without an error -/

namespace Trace

variable {α β : Type}

theorem holds_true_iff {t : Trace α} : t.Holds (fun _ => True) ↔ t.error = none :=
  ⟨fun h => h.1, fun h => ⟨h, fun _ _ => trivial⟩⟩

theorem error_append {t u : Trace α} :
    (t ++ u).error = none ↔ t.error = none ∧ u.error = none := by
  simp only [← holds_true_iff, holds_append]

theorem error_each {f : β → Trace α} {bs : List β} :
    (each f bs).error = none ↔ ∀ b ∈ bs, (f b).error = none := by
  simp only [← holds_true_iff, holds_each]

end Trace

/-! ## Calls -/

/-- What a call does with a value and a spec. -/
inductive Task where
  | validate
  | walk
deriving DecidableEq

/-- The fields that a component hands a value to. -/
def Task.pick : Task → Component → Value → Option Fields
  | validate => Component.comparedFields?
  | walk => Component.walkedFields?

/-- A call of validation or of a walk. -/
structure Call where
  task : Task
  spec : Spec
  value : Value

namespace Schema

variable (S : Schema) (d : Script)

/-- A call makes another one. -/
inductive Calls : Call → Call → Prop
  | item {task : Task} {items : Spec} {info : Info} {v w : Value} {vs : List Value} :
    v.array? = some vs → w ∈ vs → Calls ⟨task, .list items info, v⟩ ⟨task, items, w⟩
  /-- Walks visit keys, but do not go into them. -/
  | key {keys values : Spec} {info : Info} {v : Value} {es : Entries Value} {e : String × Value} :
    v.object? = some es → e ∈ es →
    Calls ⟨.validate, .dictionary keys values info, v⟩ ⟨.validate, keys, .string e.1⟩
  | value {task : Task} {keys values : Spec} {info : Info} {v : Value} {es : Entries Value}
    {e : String × Value} : v.object? = some es → e ∈ es →
    Calls ⟨task, .dictionary keys values info, v⟩ ⟨task, values, e.2⟩
  | field {task : Task} {fields : Fields} {info : Info} {v w : Value} {es : Entries Value}
    {f : String × Spec} : Fields.lone? fields = none → v.object? = some es → f ∈ fields →
    es.lookup f.1 = some w → Calls ⟨task, .object fields info, v⟩ ⟨task, f.2, w⟩
  /-- The value itself is handed on, by a component or by a lone `self`. -/
  | handOn {task : Task} {spec next : Spec} {v : Value} : S.HandsOn task.pick v spec next →
    Calls ⟨task, spec, v⟩ ⟨task, next, v⟩
  /-- An id calls for a walk through every resource of the script. -/
  | instanceId {kind name type : String} {info : Info} {v w : Value} {id : Int} {c : Class}
    {vs : List Value} : v.int64? = some id → S.Registers kind → (name, .array vs) ∈ d.entries →
    name ≠ Script.metaKey → S.resourceFor? name = some (type, c) → w ∈ vs →
    Calls ⟨.validate, .terminal (.instanceId kind) info, v⟩ ⟨.walk, .object c.fields .plain, w⟩

/-- The chain of calls below the call is finite. -/
def Returns (call : Call) : Prop := Acc (fun next call => S.Calls d call next) call

/-- The outcome of the call is none of the faults. -/
def Ends : Call → Prop
  | ⟨.validate, spec, v⟩ => ∀ name, Search.Completes (S.problems d name spec v)
  | ⟨.walk, spec, v⟩ => ∀ focus path, (S.visits focus path spec v).error = none

variable {S d}

theorem Returns.settles {call : Call} (h : S.Returns d call) :
    S.Settles call.task.pick call.value call.spec := by
  induction h with
  | intro call _ ih => exact .intro _ fun next hn => ih ⟨call.task, next, call.value⟩ (.handOn hn)

/-! ## Levels that end well -/

section Levels

variable (focus : Focus) (present : List String) (path name lead : String)

theorem error_list {items : Spec} {info : Info} {v : Value} :
    (S.visitsWhile focus present path (.list items info) v).error = none ↔
      ∀ vs, v.array? = some vs → ∀ m ∈ vs.zipIdx,
        (S.visits focus (Path.item path m.2) items m.1).error = none := by
  rw [visitsWhile_list_eq]
  rcases v.array? with _ | vs
  · exact ⟨fun _ => nofun, fun _ => rfl⟩
  · simp only [Trace.error_each, Option.some.injEq, forall_eq']

theorem error_dictionary {keys values : Spec} {info : Info} {v : Value} :
    (S.visitsWhile focus present path (.dictionary keys values info) v).error = none ↔
      ∀ es, v.object? = some es → ∀ e ∈ es,
        (S.visits focus (Path.entry path e.1) values e.2).error = none := by
  rw [visitsWhile_dictionary_eq]
  rcases v.object? with _ | es
  · exact ⟨fun _ => nofun, fun _ => rfl⟩
  · have hk : (keyVisits focus path keys es).error = none := by
      unfold keyVisits
      split <;> rfl
    simp only [Trace.error_append, hk, true_and, Trace.error_each, Option.some.injEq, forall_eq']

theorem error_fields {fields : Fields} (hl : fields.lone? = none) {v : Value} :
    (S.fieldVisitsWhile focus present path fields v).error = none ↔
      ∀ es, v.object? = some es → ∀ f ∈ fields, ∀ w, es.lookup f.1 = some w →
        (S.visits focus (Path.field path f.1) f.2 w).error = none := by
  rw [fieldVisitsWhile_eq, hl]
  rcases v.object? with _ | es
  · exact ⟨fun _ => nofun, fun _ => rfl⟩
  · simp only [Trace.error_each, Option.some.injEq, forall_eq']
    refine forall₂_congr fun f _ => ?_
    rcases es.lookup f.1 with _ | w
    · exact ⟨fun _ => nofun, fun _ => rfl⟩
    · simp only [Option.elim_some, Option.some.injEq, forall_eq']

open Search

theorem completes_list {items : Spec} {info : Info} {v : Value} :
    Completes (S.problemsWhile d present name (.list items info) v) ↔
      ∀ vs, v.array? = some vs → ∀ m ∈ vs.zipIdx,
        Completes (S.problems d (Path.item name m.2) items m.1) := by
  rw [problemsWhile_list_eq]
  rcases v.array? with _ | vs
  · exact ⟨fun _ => nofun, fun _ => ⟨_, rfl⟩⟩
  · simp only [gather_completes_iff, List.forall_mem_map, Option.some.injEq, forall_eq']

theorem completes_dictionary {keys values : Spec} {info : Info} {v : Value} :
    Completes (S.problemsWhile d present name (.dictionary keys values info) v) ↔
      ∀ es, v.object? = some es → ∀ e ∈ es,
        Completes (S.problems d (Path.entry name e.1) keys (.string e.1)) ∧
        Completes (S.problems d (Path.entry name e.1) values e.2) := by
  rw [problemsWhile_dictionary_eq]
  rcases v.object? with _ | es
  · exact ⟨fun _ => nofun, fun _ => ⟨_, rfl⟩⟩
  · simp only [gather_completes_iff, both_completes_iff, List.forall_mem_map, Option.some.injEq,
      forall_eq']

theorem completes_fields {fields : Fields} (hl : fields.lone? = none) {v : Value} :
    Completes (S.fieldProblemsWhile d present lead fields v) ↔
      ∀ es, v.object? = some es → ∀ f ∈ fields, ∀ w, es.lookup f.1 = some w →
        Completes (S.problems d (lead ++ f.1) f.2 w) := by
  rw [fieldProblemsWhile_eq, hl]
  rcases v.object? with _ | es
  · exact ⟨fun _ => nofun, fun _ => ⟨_, rfl⟩⟩
  · have hu : Completes (.ok (unexpectedProblems lead fields es)) := ⟨_, rfl⟩
    simp only [both_completes_iff, hu, and_true, gather_completes_iff, List.forall_mem_map,
      Option.some.injEq, forall_eq']
    refine forall₂_congr fun f _ => ?_
    rcases es.lookup f.1 with _ | w
    · exact ⟨fun _ => nofun, fun _ => ⟨_, rfl⟩⟩
    · simp only [entryProblems, Option.some.injEq, forall_eq']

theorem error_findings : (S.findings focus d).error = none ↔
    ∀ name vs, (name, .array vs) ∈ d.entries → name ≠ Script.metaKey →
      ∀ type c, S.resourceFor? name = some (type, c) → ∀ m ∈ vs.zipIdx,
        (S.fieldVisits focus "" c.fields m.1).error = none := by
  simp only [← Trace.holds_true_iff]
  exact holds_findings_iff

theorem completes_instanceId {kind : String} (hk : S.Registers kind) {v : Value} :
    Completes (S.instanceProblems d name kind v) ↔
      ∀ id, v.int64? = some id → (S.findings (.component kind) d).error = none := by
  unfold instanceProblems
  rcases v.int64? with _ | id
  · exact ⟨fun _ => nofun, fun _ => ⟨_, rfl⟩⟩
  constructor
  · rintro ⟨ps, h⟩ - -
    obtain ⟨found, hf, -⟩ := bind_eq_ok_iff.1 h
    obtain ⟨is, hi, -⟩ := map_eq_ok_iff.1 hf
    exact (instances_eq_ok_iff.1 hi).2.1
  · intro h
    have hi := instances_eq_ok_iff.2 ⟨hk, h id rfl, rfl⟩
    obtain ⟨found, hf⟩ : ∃ found, S.locate d kind id = .ok found := ⟨_, by rw [locate, hi]; rfl⟩
    dsimp only
    rw [hf]
    cases found <;> exact ⟨_, rfl⟩

end Levels

/-! ## Calls that return end well -/

section Ends

variable (hS : S.Sound)
include hS

/-- What a value is handed on to has no faults either. -/
theorem HandsOn.every (task : Task) {v : Value} {spec next : Spec}
    (hn : S.HandsOn task.pick v spec next) (h : spec.Every S.Admits S.Registers) :
    next.Every S.Admits S.Registers := by
  cases spec with
  | object fields info => exact Spec.EveryField.lone h hn
  | component kind info =>
    cases task with
    | validate =>
      obtain ⟨c, fields, hc, hf, rfl⟩ := hn.exists_of_component
      obtain ⟨variant, chosen, -, hx, rfl⟩ := Component.comparedFields?_eq_some_iff.1 hf
      exact hS.everyField chosen (.variant hc hx)
    | walk =>
      obtain ⟨c, hc, -, rfl⟩ := hn.exists_classAt
      exact hS.everyField_classAt hc v
  | _ => nomatch hn

/-- A walk ends well if all calls that it makes do. -/
theorem ends_walk {spec : Spec} {v : Value} (hs : S.Settles Component.walkedFields? v spec)
    (h : spec.Every S.Admits S.Registers)
    (ih : ∀ next, S.Calls d ⟨.walk, spec, v⟩ next → next.spec.Every S.Admits S.Registers →
      S.Ends d next) :
    S.Ends d ⟨.walk, spec, v⟩ := by
  intro focus path
  cases spec with
  | terminal t info =>
    rw [visits, visitsWhile_terminal]
    split <;> rfl
  | list items info =>
    refine (error_list focus [] path).2 fun vs hv m hm => ?_
    exact ih ⟨.walk, items, m.1⟩ (.item hv (List.fst_mem_of_mem_zipIdx hm)) h focus _
  | dictionary keys values info =>
    refine (error_dictionary focus [] path).2 fun es hv e he => ?_
    exact ih ⟨.walk, values, e.2⟩ (.value hv he) h.2 focus _
  | object fields info =>
    rw [visits, visitsWhile_object]
    rcases hl : Fields.lone? fields with _ | next
    · refine (error_fields focus [] path hl).2 fun es hv f hf w hw => ?_
      exact ih ⟨.walk, f.2, w⟩ (.field hl hv hf hw) (Spec.everyField_iff.1 h f hf) focus _
    · rw [fieldVisitsWhile_lone S focus [] path hl]
      exact ih ⟨.walk, next, v⟩ (.handOn hl) (Spec.EveryField.lone h hl) focus path
  | component kind info =>
    obtain ⟨c, hc⟩ := Option.isSome_iff_exists.1 h
    rw [visits_component_of_settles hs, Trace.error_append]
    refine ⟨by split <;> rfl, ?_⟩
    simp only [hc]
    split
    · rename_i hv
      have hn := handsOn_component hc (c.walkedFields?_of_isObject hv) info
      exact ih ⟨.walk, _, v⟩ (.handOn hn) (HandsOn.every hS .walk hn h) focus path
    · rfl

/-- Validation of a terminal value ends well if all walks that it asks for do. -/
theorem ends_validate_terminal {t : Terminal} {info : Info} {v : Value} (ht : S.Admits t)
    (ih : ∀ next, S.Calls d ⟨.validate, .terminal t info, v⟩ next →
      next.spec.Every S.Admits S.Registers → S.Ends d next) :
    S.Ends d ⟨.validate, .terminal t info, v⟩ := by
  intro name
  rw [problems, problemsWhile_terminal]
  cases t with
  | scalar format => exact ⟨_, rfl⟩
  | reference collection special nullable => exact ⟨_, rfl⟩
  | enum options =>
    have he : ¬ options.isEmpty = true := fun h => ht (List.isEmpty_iff.1 h)
    rw [terminalProblems, enumProblems, if_neg he]
    split <;> exact ⟨_, rfl⟩
  | instanceId kind =>
    refine (completes_instanceId name ht).2 fun id hi => ?_
    refine (error_findings _).2 fun key vs he hm type c hc m hv => ?_
    have hw := ih ⟨.walk, .object c.fields .plain, m.1⟩
      (.instanceId hi ht he hm hc (List.fst_mem_of_mem_zipIdx hv))
      (hS.everyField c (S.describes_of_resourceFor hc)) (.component kind) ""
    rwa [visits, visitsWhile_object] at hw

/-- Validation ends well if all calls that it makes do. -/
theorem ends_validate {spec : Spec} {v : Value} (hs : S.Settles Component.comparedFields? v spec)
    (h : spec.Every S.Admits S.Registers)
    (ih : ∀ next, S.Calls d ⟨.validate, spec, v⟩ next → next.spec.Every S.Admits S.Registers →
      S.Ends d next) :
    S.Ends d ⟨.validate, spec, v⟩ := by
  cases spec with
  | terminal t info => exact ends_validate_terminal hS h ih
  | list items info =>
    intro name
    refine (completes_list [] name).2 fun vs hv m hm => ?_
    exact ih ⟨.validate, items, m.1⟩ (.item hv (List.fst_mem_of_mem_zipIdx hm)) h _
  | dictionary keys values info =>
    intro name
    refine (completes_dictionary [] name).2 fun es hv e he => ⟨?_, ?_⟩
    · exact ih ⟨.validate, keys, .string e.1⟩ (.key hv he) h.1 _
    · exact ih ⟨.validate, values, e.2⟩ (.value hv he) h.2 _
  | object fields info =>
    intro name
    rw [problems, problemsWhile_object]
    rcases hl : Fields.lone? fields with _ | next
    · refine (completes_fields [] _ hl).2 fun es hv f hf w hw => ?_
      exact ih ⟨.validate, f.2, w⟩ (.field hl hv hf hw) (Spec.everyField_iff.1 h f hf) _
    · rw [fieldProblemsWhile_lone S d [] hl]
      exact ih ⟨.validate, next, v⟩ (.handOn hl) (Spec.EveryField.lone h hl) _
  | component kind info =>
    intro name
    obtain ⟨c, hc⟩ := Option.isSome_iff_exists.1 h
    rw [problems_component_of_settles d hs]
    simp only [hc]
    rcases hv : c.choose v with _ | _ | variant
    · exact ⟨_, rfl⟩
    · exact ⟨_, rfl⟩
    dsimp only
    rcases hx : c.variant? variant with _ | chosen
    · exact ⟨_, rfl⟩
    have hf : c.comparedFields? v = some chosen.fields :=
      Component.comparedFields?_eq_some_iff.2 ⟨variant, chosen, hv, hx, rfl⟩
    have hn := handsOn_component hc hf info
    refine Search.both_completes_iff.2 ⟨?_, _, rfl⟩
    exact ih ⟨.validate, _, v⟩ (.handOn hn) (hS.everyField chosen (.variant hc hx)) name

/-- **A call that returns ends well.** -/
theorem ends_of_returns {call : Call} (h : S.Returns d call)
    (hc : call.spec.Every S.Admits S.Registers) : S.Ends d call := by
  induction h with
  | intro call hcalls ih =>
    have hs := Returns.settles (S := S) (d := d) (.intro call hcalls)
    obtain ⟨_ | _, spec, v⟩ := call
    · exact ends_validate hS hs hc ih
    · exact ends_walk hS hs hc ih

end Ends

/-! ## Calls that end well return -/

/-- A walk that meets no error returns. -/
theorem walk_returns_descent (focus : Focus) :
    S.Descent
      (fun present spec v => ∀ path, (S.visitsWhile focus present path spec v).error = none →
        S.Returns d ⟨.walk, spec, v⟩)
      (fun present fields v => ∀ path,
        (S.fieldVisitsWhile focus present path fields v).error = none →
          ∀ info, S.Returns d ⟨.walk, .object fields info, v⟩) where
  terminal present t info v path _ := by
    refine .intro _ fun next hc => ?_
    cases hc with
    | handOn hn => nomatch hn
  list present items info v ih path h := by
    refine .intro _ fun next hc => ?_
    cases hc with
    | handOn hn => nomatch hn
    | item hv hw =>
      obtain ⟨i, hi⟩ := List.getElem?_of_mem hw
      exact ih _ hv _ hw _ ((error_list focus present path).1 h _ hv _
        (List.mk_mem_zipIdx_iff_getElem?.2 hi))
  dictionary present keys values info v ih path h := by
    refine .intro _ fun next hc => ?_
    cases hc with
    | handOn hn => nomatch hn
    | value hv he =>
      exact (ih _ hv _ he).2 _ ((error_dictionary focus present path).1 h _ hv _ he)
  object present fields info v ih path h := by
    rw [visitsWhile_object] at h
    exact ih path h info
  component present kind info v ih path h := by
    refine .intro _ fun next hc => ?_
    cases hc with
    | handOn hn =>
      obtain ⟨c, hc, hv, rfl⟩ := hn.exists_classAt
      rw [visitsWhile_component_eq, Trace.error_append] at h
      simp only [hc, hv, if_true] at h
      by_cases hk : kind ∈ present
      · rw [if_pos hk] at h
        nomatch h.2
      · rw [if_neg hk] at h
        exact ih c hc hk _ path h.2 .plain
  fields present fields v lone parts path h info := by
    refine .intro _ fun next hc => ?_
    cases hc with
    | handOn hn =>
      rw [fieldVisitsWhile_lone S focus present path hn] at h
      exact lone _ hn path h
    | field hl hv hf hw =>
      exact parts _ hv _ hf _ hw _ ((error_fields focus present path hl).1 h _ hv _ hf _ hw)

/-- Validation that comes to its end returns. -/
theorem validate_returns_descent :
    S.Descent
      (fun present spec v => ∀ name, Search.Completes (S.problemsWhile d present name spec v) →
        S.Returns d ⟨.validate, spec, v⟩)
      (fun present fields v => ∀ lead,
        Search.Completes (S.fieldProblemsWhile d present lead fields v) →
          ∀ info, S.Returns d ⟨.validate, .object fields info, v⟩) where
  terminal present t info v name h := by
    refine .intro _ fun next hc => ?_
    cases hc with
    | handOn hn => nomatch hn
    | instanceId hi hk he hm hc hw =>
      rw [problemsWhile_terminal] at h
      obtain ⟨i, hz⟩ := List.getElem?_of_mem hw
      have herr := (error_findings _).1 ((completes_instanceId name hk).1 h _ hi) _ _ he hm _ _ hc
      exact (walk_returns_descent _).fieldsOf [] _ _ ""
        (herr _ (List.mk_mem_zipIdx_iff_getElem?.2 hz)) .plain
  list present items info v ih name h := by
    refine .intro _ fun next hc => ?_
    cases hc with
    | handOn hn => nomatch hn
    | item hv hw =>
      obtain ⟨i, hi⟩ := List.getElem?_of_mem hw
      exact ih _ hv _ hw _ ((completes_list present name).1 h _ hv _
        (List.mk_mem_zipIdx_iff_getElem?.2 hi))
  dictionary present keys values info v ih name h := by
    refine .intro _ fun next hc => ?_
    cases hc with
    | handOn hn => nomatch hn
    | key hv he => exact (ih _ hv _ he).1 _ ((completes_dictionary present name).1 h _ hv _ he).1
    | value hv he => exact (ih _ hv _ he).2 _ ((completes_dictionary present name).1 h _ hv _ he).2
  object present fields info v ih name h := by
    rw [problemsWhile_object] at h
    exact ih _ h info
  component present kind info v ih name h := by
    refine .intro _ fun next hc => ?_
    cases hc with
    | handOn hn =>
      obtain ⟨c, fields, hc, hf, rfl⟩ := hn.exists_of_component
      obtain ⟨variant, chosen, hv, hx, rfl⟩ := Component.comparedFields?_eq_some_iff.1 hf
      rw [problemsWhile_component_eq] at h
      simp only [hc, hv, hx] at h
      by_cases hk : kind ∈ present
      · rw [if_pos hk] at h
        obtain ⟨_, h⟩ := h
        nomatch h
      · rw [if_neg hk, Search.both_completes_iff] at h
        exact ih c hc hk _ _ h.1 .plain
  fields present fields v lone parts lead h info := by
    refine .intro _ fun next hc => ?_
    cases hc with
    | handOn hn =>
      rw [fieldProblemsWhile_lone S d present hn] at h
      exact lone _ hn _ h
    | field hl hv hf hw =>
      exact parts _ hv _ hf _ hw _ ((completes_fields present lead hl).1 h _ hv _ hf _ hw)

/-- **A call that ends well returns.** -/
theorem returns_of_ends {call : Call} (h : S.Ends d call) : S.Returns d call := by
  obtain ⟨_ | _, spec, v⟩ := call
  · exact validate_returns_descent.spec [] spec v "" (h "")
  · exact (walk_returns_descent .terminal).spec [] spec v "" (h .terminal "")

end Schema

end ScriptSchema
