import ScriptSchema.Proofs.Sound
import ScriptSchema.Visit.Edit
import ScriptSchema.Workbench

/-!
# Why an editing walk stops

Under a sound schema an editing walk that stops early does so because its editor raised an error, or
because it went deeper than it may. What the editor leaves decides how the walk goes on, and it may
leave anything: the class of a component is looked up in the schema each time.

* `Edit.StopsBy`: an edit does not stop for a fault of the schema;
* **`edit_stopsBy`**, **`editScript_stopsBy`**: editing walks;
* `Step.Raises`: an error that a transform of a step can return;
* `change_stopsBy`, **`runSteps_stop`**: steps of a migration;
* **`migrate_eq_failed`**: migrations.
-/

namespace ScriptSchema

variable {σ ε α β : Type}

namespace Edit

/-- If the edit stops early, then for want of depth or with an error that satisfies `q`. -/
def StopsBy (q : ε → Prop) (x : Edit σ ε α) : Prop :=
  ∀ stop, x.stop = some stop → stop = .tooDeep ∨ ∃ e, stop = .raised e ∧ q e

namespace StopsBy

variable {q : ε → Prop}

theorem of_none {x : Edit σ ε α} (h : x.stop = none) : StopsBy q x :=
  fun _ hs => nomatch h.symm.trans hs

theorem keep (a : α) (s : σ) : StopsBy q (Edit.keep a s) := of_none rfl

theorem tooDeep (a : α) (s : σ) : StopsBy q (halt a s .tooDeep) :=
  fun _ hs => .inl (Option.some.inj hs).symm

theorem halt {x : Edit σ ε α} (h : StopsBy q x) {stop : Stop ε} (hs : x.stop = some stop) (b : β)
    (s : σ) : StopsBy q (Edit.halt b s stop) :=
  fun _ hs' => h _ (hs.trans hs')

theorem map {x : Edit σ ε α} (h : StopsBy q x) (f : α → β) : StopsBy q (x.map f) := h

theorem andThen {x : Edit σ ε α} (h : StopsBy q x) {next : α → σ → Edit σ ε α}
    (hn : ∀ a s, StopsBy q (next a s)) : StopsBy q (x.andThen next) := by
  unfold Edit.andThen
  split
  · exact hn _ _
  · exact h

theorem ask {editor : Editor σ ε} (hq : ∀ visit s e, (editor visit s).error = some e → q e)
    (visit : Visit) (s : σ) : StopsBy q (Edit.ask editor visit s) := by
  intro stop hs
  obtain ⟨e, he, rfl⟩ := Option.map_eq_some_iff.1 hs
  exact .inr ⟨e, rfl, hq visit s e he⟩

theorem members {f : Nat → α → σ → Edit σ ε α} {as : List α}
    (h : ∀ i, ∀ a ∈ as, ∀ s, StopsBy q (f i a s)) (index : Nat) (s : σ) :
    StopsBy q (Edit.members f index as s) := by
  induction as generalizing index s with
  | nil => exact keep [] s
  | cons a as ih =>
    rw [Edit.members]
    have ha := h index a List.mem_cons_self s
    split
    · rename_i hs
      exact ha.halt hs _ _
    · exact (ih (fun i b hb => h i b (List.mem_cons_of_mem _ hb)) (index + 1) _).map _

theorem declared {f : String → Spec → Value → σ → Edit σ ε Value} {fields : Fields}
    (h : ∀ e ∈ fields, ∀ v s, StopsBy q (f e.1 e.2 v s)) (es : Entries Value) (s : σ) :
    StopsBy q (Edit.declared f fields es s) := by
  induction fields generalizing es s with
  | nil => exact keep es s
  | cons e fields ih =>
    rw [List.forall_mem_cons] at h
    rw [Edit.declared]
    split
    · exact ih h.2 es s
    · exact ((h.1 _ s).map _).andThen (ih h.2)

theorem keys {editor : Editor σ ε} (hq : ∀ visit s e, (editor visit s).error = some e → q e)
    (path : String) (spec : Spec) (es : Entries Value) (s : σ) :
    StopsBy q (Edit.keys editor path spec es s) := by
  unfold Edit.keys
  dsimp only
  split
  · rename_i hs
    refine (members (fun _ key _ s => ?_) 0 s).halt hs _ _
    exact (ask hq _ s).map _
  · split <;> exact keep _ _

theorem fields {edit : String → Spec → Value → σ → Edit σ ε Value} {fields : Fields}
    (lone : ∀ spec, fields.lone? = some spec → ∀ path v s, StopsBy q (edit path spec v s))
    (h : ∀ e ∈ fields, ∀ path v s, StopsBy q (edit path e.2 v s)) (path : String) (v : Value)
    (s : σ) : StopsBy q (Edit.fields edit path fields v s) := by
  unfold Edit.fields
  split
  · rename_i spec hl
    exact lone spec hl path v s
  · split
    · refine map (declared (fun e he v s => ?_) _ s) _
      exact h e he _ v s
    · exact keep v s

end StopsBy

end Edit

namespace Schema

variable {S : Schema} (hS : S.Sound) {q : ε → Prop}
include hS

/-! ## Editing walks -/

/-- **An editing walk by a spec without faults does not stop for a fault.** -/
theorem edit_stopsBy (focus : Focus) {editor : Editor σ ε}
    (hq : ∀ visit s e, (editor visit s).error = some e → q e) (depth : Nat) (path : String)
    {spec : Spec} (h : spec.Every S.Admits S.Registers) (v : Value) (s : σ) :
    Edit.StopsBy q (S.edit focus editor depth path spec v s) := by
  induction depth generalizing path spec v s with
  | zero => exact .tooDeep v s
  | succ depth ih =>
    have below {fields : Fields} (hf : Spec.EveryField S.Admits S.Registers fields) (path : String)
        (v : Value) (s : σ) :
        Edit.StopsBy q (Edit.fields (S.edit focus editor depth) path fields v s) :=
      .fields (fun _ hl path v s => ih path (hf.lone hl) v s)
        (fun e he path v s => ih path (Spec.everyField_iff.1 hf e he) v s) path v s
    rw [edit.eq_def]
    dsimp only
    split
    · split
      · exact .ask hq _ s
      · exact .keep v s
    · rename_i items _ vs
      refine Edit.StopsBy.map (.members (fun i w _ s => ?_) 0 s) _
      exact ih _ (show items.Every S.Admits S.Registers from h) w s
    · refine (Edit.StopsBy.andThen ?_ fun es s => .members (fun _ e _ s => ?_) 0 s).map _
      · split
        · exact .keys hq _ _ _ s
        · exact .keep _ s
      · exact (ih _ h.2 e.2 s).map _
    · exact below h path v s
    · rename_i kind info _
      obtain ⟨c, hc⟩ := Option.isSome_iff_exists.1 h
      refine Edit.StopsBy.andThen ?_ fun w s => ?_
      · split
        · exact .ask hq _ s
        · exact .keep _ s
      · simp only [hc]
        split
        · exact below (hS.everyField_classAt hc w) path w s
        · exact .keep w s
    · exact .keep v s

theorem editFields_stopsBy (focus : Focus) {editor : Editor σ ε}
    (hq : ∀ visit s e, (editor visit s).error = some e → q e) (depth : Nat) (path : String)
    {c : Class} (hc : S.Describes c) (v : Value) (s : σ) :
    Edit.StopsBy q (S.editFields focus editor depth path c.fields v s) :=
  have hf := hS.everyField c hc
  .fields (fun _ hl path v s => edit_stopsBy hS focus hq depth path (hf.lone hl) v s)
    (fun e he path v s => edit_stopsBy hS focus hq depth path (Spec.everyField_iff.1 hf e he) v s)
    path v s

/-- **An editing walk through a script does not stop for a fault.** -/
theorem editScript_stopsBy (focus : Focus) {editor : PlacedEditor σ ε}
    (hq : ∀ place owner visit s e, (editor place owner visit s).error = some e → q e) (depth : Nat)
    (d : Script) (s : σ) : Edit.StopsBy q (S.editScript focus editor depth d s) := by
  refine (Edit.StopsBy.members (fun _ entry _ s => ?_) 0 s).map _
  unfold editEntry
  split
  · exact .keep entry s
  · split
    · rename_i type c vs hc _
      refine (Edit.StopsBy.members (fun i v _ s => ?_) 0 s).map _
      exact editFields_stopsBy hS focus (hq _ _) depth "" (S.describes_of_resourceFor hc) v s
    · exact .keep entry s

end Schema

/-! ## Migrations -/

/-- A transform of the step can return this error. -/
def Step.Raises (text : String) : Step → Prop
  | .script f => ∃ w d, (f w d).failure = some text
  | .collection _ f => ∃ w v, (f w v).failure = some text
  | .component _ f => ∃ owner w v, (f owner w v).failure = some text

theorem Transform.run_stopsBy {q : String → Prop} {f : Transform α}
    (hq : ∀ w a text, (f w a).failure = some text → q text) (a : α) (w : Workspace) :
    Edit.StopsBy q (f.run a w) := by
  intro stop hs
  obtain ⟨text, ht, rfl⟩ := Option.map_eq_some_iff.1 hs
  exact .inr ⟨text, rfl, hq _ _ _ ht⟩

theorem foldlM_eq_error {f : β → α → Except ε β} {as : List α} {b : β} {e : ε}
    (h : as.foldlM f b = .error e) : ∃ a ∈ as, ∃ b, f b a = .error e := by
  induction as generalizing b with
  | nil => nomatch h
  | cons a as ih =>
    rw [List.foldlM_cons] at h
    rcases hb : f b a with e' | b'
    · rw [hb] at h
      exact ⟨a, List.mem_cons_self, b, hb.trans h⟩
    · rw [hb] at h
      obtain ⟨a', ha, b', he⟩ := ih h
      exact ⟨a', List.mem_cons_of_mem _ ha, b', he⟩

namespace Schema

variable {S : Schema} (hS : S.Sound)
include hS

/-- A step stops for an error of its transform, or for want of depth. -/
theorem change_stopsBy (depth : Nat) (step : Step) (d : Script) (w : Workspace) :
    Edit.StopsBy step.Raises (S.change depth step d w) := by
  cases step with
  | script f => exact Transform.run_stopsBy (fun w d _ h => ⟨w, d, h⟩) d _
  | collection name f =>
    rw [change, changeCollection]
    split
    · exact .keep d w
    · refine (Edit.StopsBy.members (fun _ v _ w => ?_) 0 _).map _
      exact Transform.run_stopsBy (fun w v _ h => ⟨w, v, h⟩) v w
  | component kind f =>
    refine (Edit.StopsBy.members (fun _ entry _ w => ?_) 0 _).map _
    unfold changeEntry
    split
    · exact .keep entry w
    · split
      · rename_i type c vs hc _
        refine (Edit.StopsBy.members (fun _ v _ w => ?_) 0 w).map _
        unfold changeInstances editResource
        split
        · exact .keep v w
        · rename_i c' hc'
          exact editFields_stopsBy hS _ (fun visit w text h => ⟨v, w, visit.value, h⟩) depth ""
            (.resource (mem_of_lookup hc')) v w
      · exact .keep entry w

omit hS in
/-- Queues do not stop a step. -/
theorem runStep_stop (depth : Nat) (step : Step) (d : Script) (w : Workspace) :
    (S.runStep depth step d w).stop = (S.change depth step d w).stop := by
  unfold runStep
  dsimp only
  split
  · rename_i hs
    exact hs.symm
  · rename_i hs
    exact hs.symm

/-- **Steps of a migration stop for an error of one of their transforms, or for want of depth.** -/
theorem runSteps_stop (depth : Nat) (steps : List Step) (d : Script) (w : Workspace)
    {stop : Stop String} (h : (S.runSteps depth steps d w).stop = some stop) :
    stop = .tooDeep ∨ ∃ text, stop = .raised text ∧ ∃ step ∈ steps, step.Raises text := by
  induction steps generalizing d w with
  | nil => nomatch h
  | cons step steps ih =>
    rw [runSteps] at h
    split at h
    · rw [runStep_stop] at h
      obtain hd | ⟨text, ht, hr⟩ := change_stopsBy hS depth step d w _ h
      · exact .inl hd
      · exact .inr ⟨text, ht, step, List.mem_cons_self, hr⟩
    · obtain hd | ⟨text, ht, step', hm, hr⟩ := ih _ _ h
      · exact .inl hd
      · exact .inr ⟨text, ht, step', List.mem_cons_of_mem _ hm, hr⟩

end Schema

/-- **A migration fails with an error of one of its transforms, or for want of depth.** -/
theorem Plan.migrate_eq_failed (m : Plan) (hS : m.schema.Sound) (d : Script) (assets : Option Value)
    {num : UInt64} {name : String} {cause : Stop String}
    (h : m.migrate d assets = .error (.failed num name cause)) :
    cause = .tooDeep ∨ ∃ text, cause = .raised text ∧
      ∃ a ∈ m.migrations, a.num = num ∧ a.name = name ∧ ∃ step ∈ a.steps, step.Raises text := by
  unfold migrate at h
  rcases he : entry d with e | ⟨d', version⟩
  · rw [he] at h
    obtain rfl := Except.error.inj h
    unfold entry at he
    split at he
    · nomatch he
    · split at he <;> nomatch he
  · rw [he] at h
    obtain ⟨a, ha, d'', hf⟩ := foldlM_eq_error h
    unfold apply at hf
    dsimp only at hf
    split at hf
    · rename_i cause' hc
      obtain ⟨rfl, rfl, rfl⟩ := MigrationFault.failed.inj (Except.error.inj hf)
      obtain hd | ⟨text, ht, hr⟩ := Schema.runSteps_stop hS m.depth a.steps d'' _ hc
      · exact .inl hd
      · exact .inr ⟨text, ht, a, (List.mem_filter.1 ha).1, rfl, rfl, hr⟩
    · nomatch hf

end ScriptSchema
