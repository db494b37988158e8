import ScriptSchema.Proofs.Endings
import ScriptSchema.Proofs.Errand
import ScriptSchema.Proofs.Naming
import ScriptSchema.Proofs.Stops

/-!
# When a component step ends

A component step hands an instance to its transform before it goes on below what the transform left
there. A transform that wraps every instance in another one of its kind is therefore handed the new
instance next, and the one below that, and so on. The step ends if that does not go on for ever.

* `Schema.Meets`: the instances that a walk comes to without going through another one;
* `Schema.Reached`: the workspaces that a transform may be handed in the course of a step;
* `Schema.Spawns`, `Schema.Exhausts`: the instances below what is left of an instance, and that this
  comes to an end;
* `Schema.StepEnds`: the step makes finitely many errands, and finishes;
* `editEnds_of_meets`, `editEnds_of_exhausts`, `clears`: walks through a value;
* **`stepEnds_iff_exhausts`**: steps;
* `exhausts_of_le`: transforms that never leave more than they were handed;
* `not_stepEnds`: a step that never ends.
-/

namespace ScriptSchema

variable {σ ε : Type}

namespace Schema

variable (S : Schema) (d : Script) (kind : String)

/-- The walk comes to an instance of the kind, and to no other one of the kind on the way. -/
inductive Meets : Call → Value → Prop
  | here {info : Info} {v : Value} : Meets ⟨.walk, .component kind info, v⟩ v
  | call {spec : Spec} {v u : Value} {next : Call} : (∀ info, spec ≠ .component kind info) →
    S.Calls d ⟨.walk, spec, v⟩ next → Meets next u → Meets ⟨.walk, spec, v⟩ u

variable {S d kind} {i : σ → Prop} {editor : Editor σ ε}

theorem not_takes (kind : String) (t : Terminal) : (Focus.component kind).takes t = false := by
  cases t <;> rfl

theorem not_takes_keys (kind : String) (keys : Spec) :
    keys.terminal?.any (Focus.component kind).takes = false := by
  cases keys with
  | terminal t info => exact not_takes kind t
  | _ => rfl

theorem takesComponent_of_ne {k : String} (h : kind ≠ k) :
    (Focus.component kind).takesComponent k = false := beq_eq_false_iff_ne.2 h

/-- The walk ends if it does below every instance that it comes to. -/
theorem editEnds_of_meets (hS : S.Sound) (hD : S.Distinct) (hg : S.Grounded) {spec : Spec}
    {v : Value} (hc : spec.Every S.Admits S.Registers) (hd : spec.Distinct)
    (h : ∀ info u, S.Meets d kind ⟨.walk, spec, v⟩ u →
      S.EditEnds (.component kind) editor i (.component kind info) u fun _ => True) :
    S.EditEnds (.component kind) editor i spec v fun _ => True := by
  have hr : S.Returns d ⟨.walk, spec, v⟩ := returns_of_grounded hg _
  generalize hcall : (⟨.walk, spec, v⟩ : Call) = call at hr
  induction hr generalizing spec v with
  | intro call _ ih =>
    subst hcall
    have below {spec' : Spec} {v' : Value} (hcalls : S.Calls d ⟨.walk, spec, v⟩ ⟨.walk, spec', v'⟩)
        (hne : ∀ info, spec ≠ .component kind info) (hc' : spec'.Every S.Admits S.Registers)
        (hd' : spec'.Distinct) :
        S.EditEnds (.component kind) editor i spec' v' fun _ => True :=
      ih _ hcalls hc' hd' (fun info u hu => h info u (.call hne hcalls hu)) rfl
    cases spec with
    | terminal t info =>
      refine editEnds_terminal fun path s hs => ?_
      rw [not_takes]
      exact .keep trivial hs
    | list items info =>
      refine editEnds_list (r := fun _ _ => True) (fun _ => trivial) (fun vs hv w hw => ?_)
        fun _ _ _ _ => trivial
      exact below (.item hv hw) nofun hc hd
    | dictionary keys values info =>
      refine editEnds_dictionary (p := fun es fs => fs = es) (r := fun _ _ => True)
        (fun _ => trivial) (fun es hv path s hs => ?_) (fun es fs hv hfs e he => ?_)
        fun _ _ _ _ _ _ => trivial
      · rw [not_takes_keys]
        exact .keep rfl hs
      · subst hfs
        exact below (.value hv he) nofun hc.2 hd.2
    | object fields info =>
      rcases hl : Fields.lone? fields with _ | next
      · refine editEnds_object (r := fun _ _ _ => True) hl hd.1 (fun _ => trivial)
          (fun es hv f hf w hw => ?_) fun _ _ _ _ => trivial
        exact below (.field hl hv hf hw) nofun (Spec.everyField_iff.1 hc f hf)
          (Spec.eachDistinct_iff.1 hd.2 f hf)
      · exact editEnds_lone hl (below (.handOn hl) nofun (hc.lone hl) (hd.lone hl))
    | component k info =>
      by_cases hk : kind = k
      · subst hk
        exact h info v .here
      · obtain ⟨c, hfind⟩ := Option.isSome_iff_exists.1 hc
        refine editEnds_component (p := (· = v)) hfind (fun path s hs => ?_)
          (fun _ _ _ => trivial) fun w hw ho => ?_
        · rw [takesComponent_of_ne hk]
          exact .keep rfl hs
        · subst hw
          have hn := handsOn_component hfind (c.walkedFields?_of_isObject ho) info
          refine below (.handOn hn) (fun info' h => hk ?_) (hS.everyField_classAt hfind w)
            (hD.classAt hfind w)
          exact (Spec.component.inj h).1.symm

/-! ## What is left of an instance -/

section Change

variable (S d kind) (change : (owner : Value) → Transform Value) (w₀ : Workspace)

/-- The transform may be handed the workspace, if the step begins with `w₀`. -/
inductive Reached : Workspace → Prop
  | start : Reached w₀
  | next {w : Workspace} (owner v : Value) : Reached w → Reached (w.absorb (change owner w v))

/-- The walk comes to the second instance below what the transform leaves of the first one. -/
def Spawns (owner v u : Value) : Prop :=
  ∃ w left next, Reached change w₀ w ∧ left = (change owner w v).value ∧
    S.HandsOn Component.walkedFields? left (.component kind .plain) next ∧
      S.Meets d kind ⟨.walk, next, left⟩ u

/-- What an instance spawns, and what that spawns, and so on, comes to an end. -/
def Exhausts (owner v : Value) : Prop :=
  Acc (fun u v => S.Spawns d kind change w₀ owner v u) v

/-- What the transform leaves of a value does not depend on which workspace it is handed, of those
that it may be handed. -/
def Heedless : Prop :=
  ∀ owner w w' v, Reached change w₀ w → Reached change w₀ w' →
    (change owner w v).value = (change owner w' v).value

section OnlyQueues

variable {change : (owner : Value) → Transform Value} {w₀ : Workspace}
  (hq : ∀ owner, (change owner).OnlyQueues)
include hq

/-- A transform that takes notes and queues, and does nothing else, has the same to read all the
time. -/
theorem Reached.same_to_read {w : Workspace} (h : Reached change w₀ w) :
    w.assets = w₀.assets ∧ w.before = w₀.before := by
  induction h with
  | start => exact ⟨rfl, rfl⟩
  | next owner v _ ih => rwa [(hq owner).absorb]

/-- So it is heedless if it goes only by what there is to read. -/
theorem heedless_of_onlyQueues (h : ∀ owner w w' v, w.assets = w'.assets → w.before = w'.before →
    (change owner w v).value = (change owner w' v).value) : Heedless change w₀ := by
  intro owner w w' v hw hw'
  obtain ⟨hassets, hbefore⟩ := hw.same_to_read hq
  obtain ⟨hassets', hbefore'⟩ := hw'.same_to_read hq
  exact h owner w w' v (hassets.trans hassets'.symm) (hbefore.trans hbefore'.symm)

end OnlyQueues

/-- The workspace of a step that writes down its errands may be handed to the transform. -/
def Arrives (s : List Errand × Workspace) : Prop := Reached change w₀ s.2

variable {S d kind change w₀} {owner v : Value} {s : List Errand × Workspace}

theorem Arrives.recorded (hs : Arrives change w₀ s) (visit : Visit) :
    Arrives change w₀ (Errand.recorded change owner visit s).state := hs.next owner visit.value

theorem value_recorded (visit : Visit) :
    (Errand.recorded change owner visit s).value = (change owner s.2 visit.value).value := rfl

/-- Edits with the transform go on to arrive there. -/
theorem alike_recorded : (Errand.recorded change owner).Alike
    (fun s t => s = t ∧ Arrives change w₀ s) (Errand.recorded change owner) := by
  rintro visit s _ ⟨rfl, hs⟩
  exact ⟨rfl, ⟨rfl, hs.recorded visit⟩, rfl⟩

theorem arrives_edit {depth : Nat} {path : String} {spec : Spec} (hs : Arrives change w₀ s) :
    Arrives change w₀
      (S.edit (.component kind) (Errand.recorded change owner) depth path spec v s).state :=
  (S.edit_alike (.component kind) alike_recorded depth path spec v ⟨rfl, hs⟩).state.2

/-! ## Walks through a value -/

variable (hf : ∀ owner w v, (change owner w v).failure = none)
include hf

theorem error_recorded (visit : Visit) (s : List Errand × Workspace) :
    (Errand.recorded change owner visit s).error = none := hf owner s.2 visit.value

section Sound

variable (hS : S.Sound) (hD : S.Distinct) (hg : S.Grounded) (hk : S.Registers kind)
include hS hD hg hk

/-- The walk through an instance ends if what it spawns comes to an end. -/
theorem editEnds_of_exhausts (h : S.Exhausts d kind change w₀ owner v) (info : Info) :
    S.EditEnds (.component kind) (Errand.recorded change owner) (Arrives change w₀)
      (.component kind info) v fun _ => True := by
  obtain ⟨c, hc⟩ := Option.isSome_iff_exists.1 hk
  induction h generalizing info with
  | intro v _ ih =>
    refine editEnds_component
      (p := fun left => ∃ w, Reached change w₀ w ∧ left = (change owner w v).value) hc
      (fun path s hs => ?_) (fun _ _ _ => trivial) fun left hleft ho => ?_
    · have htakes : (Focus.component kind).takesComponent kind = true := beq_self_eq_true kind
      rw [htakes, if_pos rfl, Edit.ask_eq_keep (error_recorded hf _ s)]
      exact .keep ⟨s.2, hs, rfl⟩ (hs.recorded _)
    · obtain ⟨w, hw, hleft⟩ := hleft
      have hn := handsOn_component hc (c.walkedFields?_of_isObject ho) .plain
      exact editEnds_of_meets hS hD hg (hS.everyField_classAt hc left) (hD.classAt hc left)
        fun info u hu => ih u ⟨w, left, _, hw, hleft, hn, hu⟩ info

end Sound

section Stop

/-- If the walk at this depth does not stop early, what the instances that it comes to spawn comes to
an end. -/
def Clears (S : Schema) (d : Script) (kind : String) (change : (owner : Value) → Transform Value)
    (w₀ : Workspace) (owner : Value) (depth : Nat) : Prop :=
  ∀ path spec v s, spec.Distinct → Arrives change w₀ s →
    (S.edit (.component kind) (Errand.recorded change owner) depth path spec v s).stop = none →
      ∀ u, S.Meets d kind ⟨.walk, spec, v⟩ u → S.Exhausts d kind change w₀ owner u

variable (hD : S.Distinct) (hn : Heedless change w₀) {depth : Nat}
  (ih : S.Clears d kind change w₀ owner depth)
include ih

omit hf in
/-- The walk goes on below an object with the same depth. -/
theorem exhausts_of_stop_fields {fields : Fields} {info : Info} {path : String} {v u : Value}
    (hd : (Spec.object fields info).Distinct) (hs : Arrives change w₀ s)
    (h : (Edit.fields (S.edit (.component kind) (Errand.recorded change owner) depth) path fields v
      s).stop = none) (hu : S.Meets d kind ⟨.walk, .object fields info, v⟩ u) :
    S.Exhausts d kind change w₀ owner u := by
  cases hu with
  | call _ hcalls hu =>
    cases hcalls with
    | field hl hv hf hw =>
      rw [fields_object hl, hv] at h
      obtain ⟨s, hs, h⟩ := Edit.stop_declared hd.1 (fun _ _ _ s hs => arrives_edit hs) hs h _ hf _ hw
      exact ih _ _ _ _ (Spec.eachDistinct_iff.1 hd.2 _ hf) hs h u hu
    | handOn hl =>
      rw [fields_lone hl] at h
      exact ih _ _ _ _ (hd.lone hl) hs h u hu

include hD hn in
/-- Of the instance itself the walk sees what the transform leaves. -/
theorem exhausts_of_stop_here {info : Info} {path : String} {v : Value} (hs : Arrives change w₀ s)
    (h : (S.edit (.component kind) (Errand.recorded change owner) (depth + 1) path
      (.component kind info) v s).stop = none) : S.Exhausts d kind change w₀ owner v := by
  have htakes : (Focus.component kind).takesComponent kind = true := beq_self_eq_true kind
  rw [edit, htakes, if_pos rfl, Edit.ask_eq_keep (error_recorded hf _ s), value_recorded] at h
  refine .intro _ fun u hu => ?_
  obtain ⟨w, left, next, hw, hleft, hnext, hu⟩ := hu
  rw [hn owner s.2 w v hs hw, ← hleft] at h
  obtain ⟨c, hc, ho, rfl⟩ := hnext.exists_classAt
  simp only [Edit.andThen, Edit.keep, hc, ho, if_true] at h
  exact exhausts_of_stop_fields ih (hD.classAt hc left) (hs.recorded _) h hu

include hD hn in
theorem Clears.succ : S.Clears d kind change w₀ owner (depth + 1) := by
  intro path spec v s hd hs h u hu
  cases hu with
  | here => exact exhausts_of_stop_here hf hD hn ih hs h
  | call hne hcalls hu =>
    cases hcalls with
    | @item _ items _ _ _ _ hv hw =>
      have hitems : items.Distinct := hd
      rw [edit_list, hv] at h
      obtain ⟨index, s, hs, h⟩ := Edit.stop_members (fun _ _ _ s hs => arrives_edit hs) hs h _ hw
      exact ih _ _ _ _ hitems hs h u hu
    | @value _ _ values _ _ es _ hv he =>
      rw [edit_dictionary, hv, not_takes_keys] at h
      let entry (_ : Nat) (e : String × Value) (s : List Errand × Workspace) :=
        (S.edit (.component kind) (Errand.recorded change owner) depth (Path.entry path e.1)
          values e.2 s).map (e.1, ·)
      have hentries : (Edit.members entry 0 es s).stop = none := h
      have hstate (index : Nat) (e : String × Value) (_ : e ∈ es) (s : List Errand × Workspace)
          (hs : Arrives change w₀ s) : Arrives change w₀ (entry index e s).state := arrives_edit hs
      obtain ⟨index, s, hs, h⟩ := Edit.stop_members hstate hs hentries _ he
      exact ih _ _ _ _ hd.2 hs h u hu
    | field hl hv hf hw =>
      exact exhausts_of_stop_fields ih hd hs h (.call nofun (.field hl hv hf hw) hu)
    | handOn hnext =>
      cases spec with
      | object fields info =>
        exact exhausts_of_stop_fields ih hd hs h (.call nofun (.handOn hnext) hu)
      | component k info =>
        have hk : kind ≠ k := fun hk => hne info (congrArg (Spec.component · info) hk.symm)
        obtain ⟨c, hc, ho, rfl⟩ := hnext.exists_classAt
        rw [edit, takesComponent_of_ne hk] at h
        simp only [Bool.false_eq_true, if_false, Edit.andThen, Edit.keep, hc, ho, if_true] at h
        exact exhausts_of_stop_fields ih (hD.classAt hc v) hs h hu
      | _ => cases hnext

omit ih
include hD hn

/-- What an instance spawns comes to an end if the walk through a value with the instance does, and
if what the transform leaves does not depend on the workspace. -/
theorem clears (depth : Nat) : S.Clears d kind change w₀ owner depth := by
  induction depth with
  | zero => exact fun _ _ _ _ _ _ h => nomatch h
  | succ depth ih => exact ih.succ hf hD hn

end Stop

end Change

/-! ## Steps -/

variable (S d kind) in
/-- In the resource there is the instance, and it does not lie in another one of the kind. -/
def Outermost (owner u : Value) : Prop :=
  ∃ entry ∈ d.entries, ∃ c vs, S.Collects entry c vs ∧ owner ∈ vs ∧
    S.Meets d kind ⟨.walk, .object c.fields .plain, owner⟩ u

variable (S kind) in
/-- From some depth on, the step makes the same errands, finitely many, and finishes. -/
def StepEnds (change : (owner : Value) → Transform Value) (d : Script) (w : Workspace) : Prop :=
  ∃ n errands p, p.stop = none ∧ ∀ depth, n ≤ depth →
    (S.recordedStep kind change depth d w).state.1 = errands ∧
      S.runStep depth (.component kind change) d w = p

theorem arrives_editOwnedEntry {change : (owner : Value) → Transform Value} {w₀ : Workspace}
    (depth : Nat) (entry : String × Value) {s : List Errand × Workspace}
    (hs : Arrives change w₀ s) :
    Arrives change w₀ (S.editOwnedEntry kind (Errand.recorded change) depth entry s).state := by
  by_cases hc : ∃ c vs, S.Collects entry c vs
  · obtain ⟨c, vs, hc⟩ := hc
    rw [editOwnedEntry_of_collects hc]
    exact Edit.state_members (fun _ owner _ s hs => arrives_edit hs) hs
  · simp only [not_exists] at hc
    rw [editOwnedEntry_of_not_collects hc]
    exact hs

section Step

variable {change : (owner : Value) → Transform Value}
  (hf : ∀ owner w v, (change owner w v).failure = none) {w : Workspace}
include hf

theorem stepEnds_of_exhausts (hS : S.Sound) (hD : S.Distinct) (hg : S.Grounded)
    (hk : S.Registers kind)
    (h : ∀ owner u, S.Outermost d kind owner u →
      S.Exhausts d kind change (w.enter (some d)) owner u) : S.StepEnds kind change d w := by
  have hentry (index : Nat) (entry : String × Value) (he : entry ∈ d.entries)
      (s : List Errand × Workspace) (hs : Arrives change (w.enter (some d)) s) :
      Edit.Ends (fun _ => True) (Arrives change (w.enter (some d))) fun depth =>
        S.editOwnedEntry kind (Errand.recorded change) depth entry s := by
    by_cases hc : ∃ c vs, S.Collects entry c vs
    · obtain ⟨c, vs, hc⟩ := hc
      have hd := hc.describes
      have hfields : (Spec.object c.fields .plain).Every S.Admits S.Registers := hS.everyField c hd
      have hone (index : Nat) (owner : Value) (ho : owner ∈ vs) (s : List Errand × Workspace)
          (hs : Arrives change (w.enter (some d)) s) :=
        Edit.Ends.deeper_iff.2 (editEnds_of_meets hS hD hg hfields (hD c hd)
          (fun info u hu => editEnds_of_exhausts hf hS hD hg hk
            (h owner u ⟨entry, he, c, vs, hc, ho, hu⟩) info) "" s hs)
      simp only [editOwnedEntry_of_collects hc]
      exact (Edit.Ends.members hone 0 hs).map fun _ _ => trivial
    · simp only [not_exists] at hc
      simp only [editOwnedEntry_of_not_collects hc]
      exact .keep trivial hs
  have hs : Arrives change (w.enter (some d)) ([], w.enter (some d)) := .start
  obtain ⟨n, es, ⟨errands, w'⟩, -, -, hstep⟩ := Edit.Ends.members hentry 0 hs
  have hrecorded (depth : Nat) (hn : n ≤ depth) :
      S.recordedStep kind change depth d w = .keep ⟨es⟩ (errands, w') :=
    congrArg (Edit.map Script.mk) (hstep depth hn)
  refine ⟨n, errands, ⟨w'.flush ⟨es⟩, w'.leave, none⟩, rfl, fun depth hn => ⟨?_, ?_⟩⟩
  · rw [hrecorded depth hn]
    rfl
  · rw [runStep, ← forget_recordedStep, hrecorded depth hn]
    rfl

/-- If the step finishes at some depth, then what its instances spawn comes to an end. -/
theorem exhausts_of_stop (hD : S.Distinct) (hn : Heedless change (w.enter (some d))) {depth : Nat}
    (h : (S.runStep depth (.component kind change) d w).stop = none) {owner u : Value}
    (ho : S.Outermost d kind owner u) : S.Exhausts d kind change (w.enter (some d)) owner u := by
  obtain ⟨entry, he, c, vs, hc, hv, hu⟩ := ho
  have hstop : (S.recordedStep kind change depth d w).stop = none := by
    rwa [runStep_stop, ← forget_recordedStep] at h
  have hs : Arrives change (w.enter (some d)) ([], w.enter (some d)) := .start
  obtain ⟨_, s, hs, hstop⟩ := Edit.stop_members
    (fun _ entry _ s hs => arrives_editOwnedEntry depth entry hs) hs hstop entry he
  rw [editOwnedEntry_of_collects hc] at hstop
  let resource (_ : Nat) (owner : Value) (s : List Errand × Workspace) :=
    S.edit (.component kind) (Errand.recorded change owner) (depth + 1) "" (.object c.fields .plain)
      owner s
  have hresources : (Edit.members resource 0 vs s).stop = none := hstop
  obtain ⟨_, s, hs, hstop⟩ :=
    Edit.stop_members (fun _ owner _ s hs => arrives_edit hs) hs hresources owner hv
  exact clears hf hD hn (depth + 1) _ _ _ _ (hD c hc.describes) hs hstop u hu

end Step

/-- **When a component step ends**: if what its instances spawn comes to an end, and if the transform
is heedless of the workspace, only then. -/
theorem stepEnds_iff_exhausts (S : Schema) (h : S.check = .ok ()) (hD : S.Distinct)
    (hl : ∀ c, S.Describes c → c.fields.lone? = none) {kind : String} (hk : S.Registers kind)
    {change : (owner : Value) → Transform Value}
    (hf : ∀ owner w v, (change owner w v).failure = none) (d : Script) (w : Workspace) :
    ((∀ owner u, S.Outermost d kind owner u →
        S.Exhausts d kind change (w.enter (some d)) owner u) → S.StepEnds kind change d w) ∧
      (Heedless change (w.enter (some d)) → (S.StepEnds kind change d w ↔
        ∀ owner u, S.Outermost d kind owner u →
          S.Exhausts d kind change (w.enter (some d)) owner u)) := by
  have hS : S.Sound := S.sound_of_check h
  have hg : S.Grounded := grounded_of_lone fun _ _ hc _ _ hx => hl _ (.variant hc hx)
  have hends := stepEnds_of_exhausts (d := d) (w := w) hf hS hD hg hk
  refine ⟨hends, fun hn => ⟨fun he owner u ho => ?_, hends⟩⟩
  obtain ⟨n, errands, p, hp, hstep⟩ := he
  have hstop : (S.runStep n (.component kind change) d w).stop = none :=
    (congrArg Progress.stop (hstep n (Nat.le_refl n)).2).trans hp
  exact exhausts_of_stop hf hD hn hstop ho

/-! ## Transforms that never leave more than they were handed -/

theorem Meets.sizeOf_le {call : Call} {u : Value} (h : S.Meets d kind call u) :
    sizeOf u ≤ sizeOf call.value := by
  induction h with
  | here => exact Nat.le_refl _
  | call _ hcalls _ ih =>
    cases hcalls with
    | item hv hw => exact Nat.le_of_lt (Nat.lt_of_le_of_lt ih (sizeOf_item hv hw))
    | value hv he => exact Nat.le_of_lt (Nat.lt_of_le_of_lt ih (sizeOf_entry hv he).2)
    | field _ hv _ hw =>
      exact Nat.le_of_lt (Nat.lt_of_le_of_lt ih (sizeOf_entry hv (mem_of_lookup hw)).2)
    | handOn => exact ih

theorem not_meets_terminal {t : Terminal} {info : Info} {v u : Value} :
    ¬ S.Meets d kind ⟨.walk, .terminal t info, v⟩ u := by
  intro h
  cases h with
  | call _ hcalls _ =>
    cases hcalls with
    | handOn hn => nomatch hn

/-- Below the fields of a class the walk comes to smaller values only. -/
theorem Meets.sizeOf_lt {fields : Fields} {info : Info} {v u : Value} (hl : fields.lone? = none)
    (h : S.Meets d kind ⟨.walk, .object fields info, v⟩ u) : sizeOf u < sizeOf v := by
  cases h with
  | call _ hcalls hu =>
    cases hcalls with
    | field _ hv _ hw =>
      exact Nat.lt_of_le_of_lt hu.sizeOf_le (sizeOf_entry hv (mem_of_lookup hw)).2
    | handOn hn => exact absurd (hl.symm.trans hn) nofun

/-- What a transform spawns comes to an end if it never leaves more than it was handed. -/
theorem exhausts_of_le (hl : ∀ c, S.Describes c → c.fields.lone? = none)
    {change : (owner : Value) → Transform Value}
    (hle : ∀ owner w v, sizeOf (change owner w v).value ≤ sizeOf v) (w₀ : Workspace)
    (owner v : Value) : S.Exhausts d kind change w₀ owner v := by
  induction hn : sizeOf v using Nat.strong_induction_on generalizing v with
  | _ n ih =>
    subst hn
    refine .intro v fun u hu => ?_
    obtain ⟨w, left, next, -, hleft, hnext, hu⟩ := hu
    have hle : sizeOf left ≤ sizeOf v := hleft ▸ hle owner w v
    obtain ⟨c, fields, hc, hfields, rfl⟩ := hnext.exists_of_component
    obtain ⟨-, hfields⟩ := Option.ite_none_right_eq_some.1 hfields
    obtain rfl := Option.some.inj hfields
    rcases hlone : (c.classAt left).fields.lone? with _ | spec
    · exact ih _ (Nat.lt_of_lt_of_le (hu.sizeOf_lt hlone) hle) u rfl
    · -- the tag of what has not chosen a variant is no instance
      obtain ⟨options, info, rfl⟩ := enum_of_lone hl hc left hlone
      cases hu with
      | call _ hcalls hu =>
        cases hcalls with
        | field hl' => exact absurd (hl'.symm.trans hlone) nofun
        | handOn hn =>
          obtain rfl := Option.some.inj (hlone.symm.trans hn)
          exact absurd hu not_meets_terminal

/-! ## Runs -/

theorem lone_scenes : ∀ c, scenes.Describes c → c.fields.lone? = none := by
  rintro c h
  cases h with
  | resource h =>
    rcases List.mem_singleton.1 h with ⟨⟩
    rfl
  | variant h hc =>
    rcases List.mem_singleton.1 (mem_of_lookup h) with ⟨⟩
    obtain ⟨own, ho, rfl⟩ := Option.map_eq_some_iff.1 hc
    rcases List.mem_cons.1 (mem_of_lookup ho) with h | h
    · cases h
      rfl
    · rcases List.mem_singleton.1 h with ⟨⟩
      rfl

/-- The change that leaves every cue as it is and notes it as the last one. -/
def noteLast (_ : Value) : Transform Value :=
  fun w v => ⟨v, w.scratch.put "last" v, .queues [], none⟩

theorem stepEnds_twoScenes :
    scenes.check = .ok () ∧ scenes.Distinct ∧ (∀ c, scenes.Describes c → c.fields.lone? = none) ∧
      scenes.Registers "cue" ∧ (∀ owner w v, (noteLast owner w v).failure = none) ∧
      scenes.StepEnds "cue" noteLast twoScenes (.start none) :=
  have hk : scenes.Registers "cue" := rfl
  have hf (owner : Value) (w : Workspace) (v : Value) : (noteLast owner w v).failure = none := rfl
  have hle (owner : Value) (w : Workspace) (v : Value) :
      sizeOf (noteLast owner w v).value ≤ sizeOf v := Nat.le_refl _
  ⟨rfl, distinct_scenes, lone_scenes, hk, hf,
    (stepEnds_iff_exhausts scenes rfl distinct_scenes lone_scenes hk hf twoScenes
      (.start none)).1 fun owner u _ => exhausts_of_le lone_scenes hle _ owner u⟩

/-- A cue that is a line. -/
def line : Value := .object [("type", .string "line")]

/-- The change that puts a block with a line in the place of every cue. -/
def toBlock (_ : Value) : Transform Value := fun w _ =>
  ⟨.object [("type", .string "block"), ("cues", .array [line])], w.scratch, .queues [], none⟩

/-- Every cue spawns the line in the block that takes its place. -/
theorem spawns_line (d : Script) (w₀ : Workspace) (owner v : Value) :
    scenes.Spawns d "cue" toBlock w₀ owner v line := by
  have hcues : ("cues", .list (.component "cue" .plain) .plain) ∈
      (cue.classNamed (some "block")).fields := .tail _ (.tail _ (.head _))
  exact ⟨w₀, _, _, .start, rfl, rfl, .call nofun (.field rfl rfl hcues rfl)
    (.call nofun (.item rfl List.mem_cons_self) .here)⟩

theorem not_exhausts_toBlock (d : Script) (w₀ : Workspace) (owner v : Value) :
    ¬ scenes.Exhausts d "cue" toBlock w₀ owner v := by
  intro h
  have hline := h.inv (spawns_line d w₀ owner v)
  generalize hv : line = v' at hline
  induction hline with
  | intro v' _ ih => exact ih line (hv ▸ spawns_line d w₀ owner v') rfl

theorem exists_outermost_twoScenes : ∃ owner u, scenes.Outermost twoScenes "cue" owner u :=
  ⟨_, _, _, .tail _ (.head _), _, _, ⟨by decide, ⟨"scene", rfl⟩, rfl⟩, List.mem_cons_self,
    .call nofun (.field rfl rfl (.tail _ (.tail _ (.head _))) rfl)
      (.call nofun (.item rfl List.mem_cons_self) .here)⟩

/-- A transform that leaves another instance below is handed that one next, and so on for ever: no
depth is enough for the step to finish. -/
theorem not_stepEnds : ¬ ∀ S : Schema, S.check = .ok () → S.Distinct →
    (∀ c, S.Describes c → c.fields.lone? = none) → ∀ kind, S.Registers kind →
      ∀ change : (owner : Value) → Transform Value,
        (∀ owner w v, (change owner w v).failure = none) →
          ∀ d w, ∃ depth, (S.runStep depth (.component kind change) d w).stop = none := by
  intro h
  have hf (owner : Value) (w : Workspace) (v : Value) : (toBlock owner w v).failure = none := rfl
  obtain ⟨depth, hstop⟩ :=
    h scenes rfl distinct_scenes lone_scenes "cue" rfl toBlock hf twoScenes (.start none)
  obtain ⟨owner, u, ho⟩ := exists_outermost_twoScenes
  exact not_exhausts_toBlock _ _ _ _
    (exhausts_of_stop hf distinct_scenes (fun _ _ _ _ _ _ => rfl) hstop ho)

end Schema

end ScriptSchema
