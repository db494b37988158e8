import ScriptSchema.Migration.Step
import ScriptSchema.Proofs.CollectionNames
import ScriptSchema.Proofs.Endings
import ScriptSchema.Proofs.Flushing
import ScriptSchema.Proofs.Relay
import ScriptSchema.Proofs.SideBySide
import ScriptSchema.Proofs.Unison

/-!
# Component steps and the editing walk

A component step of a migration goes through the collections of a script by itself, resource by
resource, and sends the transform to an instance with the resource that owns it. It is the editing
walk through the script all the same, with the transform as the editor, although the script changes
on the way: what decides how either goes on is what the transform leaves, and that is the same. The
script that the transform may read is the one that the step began with, until a transform puts
another one in its place.

* `PlacedEditor.ofChange`: the transform as an editor of the script that the step begins with;
* `Errand`, `Errand.Answers`: what a transform is sent with, and for which visit;
* `Schema.editOwned`, **`editOwned_alike`**: the step, for any editors that are given an owner;
* `Schema.StepIsWalk`, **`step_is_walk`**: the step is the walk;
* `not_shown_throughout`: a transform may read something else than the script, and a step may leave
  more than the walk.
-/

namespace ScriptSchema

variable {σ τ ε : Type}

/-! ## Transforms as editors -/

/-- The transform as an editor of a script. Its owner is the resource that stood at the place of the
visit at the start. -/
def PlacedEditor.ofChange (d : Script) (change : (owner : Value) → Transform Value) :
    PlacedEditor Workspace String :=
  fun place _ visit w =>
    match d.resourceAt? place with
    | none => ⟨visit.value, w, none⟩
    | some owner => (change owner).editor visit w

/-- What a transform is sent with. -/
structure Errand where
  owner : Value
  workspace : Workspace
  value : Value

namespace Errand

/-- The errand is for the visit: to the visited value, with the resource at its place in `d` as the
owner. -/
structure Answers (d : Script) (errand : Errand) (f : Finding) : Prop where
  owner : d.resourceAt? f.place = some errand.owner
  value : errand.value = f.visit.value

variable (change : (owner : Value) → Transform Value)

/-- The workspace as the transform leaves it. -/
def left (errand : Errand) : Workspace :=
  errand.workspace.absorb (change errand.owner errand.workspace errand.value)

/-- The transform leaves the script to read that it found. -/
def Keeps (errand : Errand) : Prop := (errand.left change).before = errand.workspace.before

/-- The transform as an editor that also writes down its errands. -/
def recorded (owner : Value) : Editor (List Errand × Workspace) String :=
  fun visit s =>
    let r := (change owner).editor visit s.2
    ⟨r.value, (s.1 ++ [⟨owner, s.2, visit.value⟩], r.state), r.error⟩

variable {change} in
theorem keeps_of_onlyQueues (h : ∀ owner, (change owner).OnlyQueues) (errand : Errand) :
    errand.Keeps change := by
  rw [Keeps, left, (h errand.owner).absorb]

end Errand

/-- The edit without what was written down. -/
def Edit.forget {α β : Type} (x : Edit (List β × σ) ε α) : Edit σ ε α := ⟨x.value, x.state.2, x.stop⟩

theorem Edit.Alike.forget_eq {α β : Type} {x : Edit (List β × σ) ε α} {y : Edit σ ε α}
    (h : x.Alike (fun s t => s.2 = t) y) : x.forget = y :=
  Edit.Alike.eq ⟨h.value, h.state, h.stop⟩

/-! ## The step for any editors -/

namespace Schema

variable (S : Schema)

/-- The component step in one entry of a script, for any editors that are given the owner of an
instance. -/
def editOwnedEntry (kind : String) (editor : (owner : Value) → Editor σ ε) (depth : Nat)
    (entry : String × Value) (s : σ) : Edit σ ε (String × Value) :=
  if entry.1 = Script.metaKey then .keep entry s
  else
    match S.resourceFor? entry.1, entry.2 with
    | some (type, _), .array vs =>
      (Edit.members (fun _ v => S.editResource (.component kind) (editor v) depth type v) 0 vs s).map
        fun vs => (entry.1, .array vs)
    | _, _ => .keep entry s

/-- The component step, for such editors. -/
def editOwned (kind : String) (editor : (owner : Value) → Editor σ ε) (depth : Nat) (d : Script)
    (s : σ) : Edit σ ε Script :=
  (Edit.members (fun _ => S.editOwnedEntry kind editor depth) 0 d.entries s).map .mk

theorem change_component (kind : String) (change : (owner : Value) → Transform Value)
    (depth : Nat) (d : Script) (w : Workspace) :
    S.change depth (.component kind change) d w =
      S.editOwned kind (fun owner => (change owner).editor) depth d (w.enter (some d)) := rfl

variable {S}

/-- A resource is edited by the class that is looked up for its collection. -/
theorem editResource_of_resourceFor {name type : String} {c : Class}
    (hc : S.resourceFor? name = some (type, c)) (focus : Focus) (editor : Editor σ ε) (depth : Nat)
    (v : Value) (s : σ) :
    S.editResource focus editor depth type v s =
      S.editFields focus editor depth "" c.fields v s := by
  rw [editResource, find?_of_resourceFor hc]

section Owned

variable {R : σ → τ → Prop} {kind : String} {f : (owner : Value) → Editor σ ε} {d : Script}
  {entry : String × Value}

theorem editOwnedEntry_of_collects {c : Class} {vs : List Value} (h : S.Collects entry c vs)
    (depth : Nat) (s : σ) :
    S.editOwnedEntry kind f depth entry s =
      (Edit.members (fun _ v => S.edit (.component kind) (f v) (depth + 1) ""
        (.object c.fields .plain) v) 0 vs s).map fun ws => (entry.1, .array ws) := by
  obtain ⟨type, hc⟩ := h.resource
  have hedit (v : Value) : S.editResource (.component kind) (f v) depth type v =
      S.edit (.component kind) (f v) (depth + 1) "" (.object c.fields .plain) v :=
    funext (editResource_of_resourceFor hc _ (f v) depth v)
  rw [editOwnedEntry, if_neg h.ne, hc, h.array]
  simp only [hedit]

theorem editOwnedEntry_of_not_collects (h : ∀ c vs, ¬ S.Collects entry c vs) (depth : Nat) (s : σ) :
    S.editOwnedEntry kind f depth entry s = .keep entry s := by
  unfold editOwnedEntry
  split
  · rfl
  · rename_i hm
    split
    · rename_i type c vs hc hv
      exact absurd ⟨hm, ⟨type, hc⟩, hv⟩ (h c vs)
    · rfl

theorem resourceAt?_of_mem (hd : d.entries.Distinct) {name : String} {vs : List Value}
    (h : (name, .array vs) ∈ d.entries) {m : Value × Nat} (hm : m ∈ vs.zipIdx) :
    d.resourceAt? ⟨name, m.2⟩ = some m.1 := by
  rw [Script.resourceAt?, Script.collection, array?_of_mem hd h]
  exact List.mem_zipIdx_iff_getElem?.1 hm

/-- **The step and the editing walk through a script are alike**, if the editor of the walk at a
place is like that of the step for the resource which stands there at the start. -/
theorem editOwned_alike {g : PlacedEditor τ ε} (hd : d.entries.Distinct)
    (hfg : ∀ place name owner, d.resourceAt? place = some owner →
      (f owner).Alike R (g place name)) (depth : Nat) {s : σ} {t : τ} (hst : R s t) :
    (S.editOwned kind f depth d s).Alike R (S.editScript (.component kind) g depth d t) := by
  refine Edit.Alike.map (.members (fun m hm s t hst => ?_) hst) Script.mk
  obtain ⟨⟨name, v⟩, i⟩ := m
  by_cases hc : ∃ c vs, S.Collects (name, v) c vs
  · obtain ⟨c, vs, hc⟩ := hc
    obtain rfl : v = .array vs := hc.array
    rw [editOwnedEntry_of_collects hc, editEntry_of_collects hc]
    refine Edit.Alike.map (.members (fun m hm' s t hst => ?_) hst) _
    have howner : d.resourceAt? ⟨name, m.2⟩ = some m.1 :=
      resourceAt?_of_mem hd (List.fst_mem_of_mem_zipIdx hm) hm'
    exact S.edit_alike _ (hfg _ _ _ howner) (depth + 1) "" (.object c.fields .plain) m.1 hst
  · simp only [not_exists] at hc
    rw [editOwnedEntry_of_not_collects hc, editEntry_of_not_collects hc]
    exact .keep (name, v) hst

/-- With editors that answer alike, the steps are alike. -/
theorem editOwned_alike_editOwned {g : (owner : Value) → Editor τ ε}
    (hfg : ∀ owner, (f owner).Alike R (g owner)) (depth : Nat) {s : σ} {t : τ} (hst : R s t) :
    (S.editOwned kind f depth d s).Alike R (S.editOwned kind g depth d t) := by
  refine Edit.Alike.map (.members (fun m _ s t hst => ?_) hst) Script.mk
  by_cases hc : ∃ c vs, S.Collects m.1 c vs
  · obtain ⟨c, vs, hc⟩ := hc
    rw [editOwnedEntry_of_collects hc, editOwnedEntry_of_collects hc]
    refine Edit.Alike.map (.members (fun m _ s t hst => ?_) hst) _
    exact S.edit_alike _ (hfg m.1) (depth + 1) "" (.object c.fields .plain) m.1 hst
  · simp only [not_exists] at hc
    rw [editOwnedEntry_of_not_collects hc, editOwnedEntry_of_not_collects hc]
    exact .keep m.1 hst

end Owned

/-! ## The step is the walk -/

section Step

variable {kind : String} {change : (owner : Value) → Transform Value} {d : Script}

section Editors

variable {place : Place} {owner : Value} (ho : d.resourceAt? place = some owner)
  (name : Option String)
include ho

/-- The editor of the walk at a place is the transform with the resource there as the owner. -/
theorem ofChange_eq : PlacedEditor.ofChange d change place name = (change owner).editor := by
  unfold PlacedEditor.ofChange
  rw [ho]

theorem editor_alike :
    (change owner).editor.Alike (· = ·) (PlacedEditor.ofChange d change place name) := by
  rintro visit w _ rfl
  rw [ofChange_eq ho]
  exact ⟨rfl, rfl, rfl⟩

theorem editor_alike_recorded : (change owner).editor.Alike (fun w t => w = t.2)
    ((PlacedEditor.ofChange d change).recorded place name) := by
  rintro visit _ t rfl
  rw [PlacedEditor.recorded, ofChange_eq ho]
  exact ⟨rfl, rfl, rfl⟩

/-- The errand that is written down is for the visit that is written down, and it takes over the
workspace from those before it. -/
theorem recorded_alike_recorded (w₀ : Workspace) : (Errand.recorded change owner).Alike
    (fun s t => s.2 = t.2 ∧ Relay Errand.workspace (Errand.left change) w₀ s.1 s.2 ∧
      List.Forall₂ (Errand.Answers d) s.1 t.1)
    ((PlacedEditor.ofChange d change).recorded place name) := by
  rintro visit ⟨errands, w⟩ ⟨found, _⟩ ⟨rfl, hrelay, hfor⟩
  rw [PlacedEditor.recorded, ofChange_eq ho]
  let errand : Errand := ⟨owner, w, visit.value⟩
  have hnext : errand.Answers d ⟨place, name, visit⟩ := ⟨ho, rfl⟩
  have hgiven : Relay Errand.workspace (Errand.left change) w₀ errands errand.workspace := hrelay
  exact ⟨rfl, ⟨rfl, hgiven.snoc, List.rel_append hfor (.cons hnext .nil)⟩, rfl⟩

end Editors

variable (S) (kind) (change) in
/-- The step, with its errands written down. -/
def recordedStep (depth : Nat) (d : Script) (w : Workspace) :
    Edit (List Errand × Workspace) String Script :=
  S.editOwned kind (Errand.recorded change) depth d ([], w.enter (some d))

/-- To write the errands down changes nothing. -/
theorem forget_recordedStep (change : (owner : Value) → Transform Value) (depth : Nat) (d : Script)
    (w : Workspace) : (S.recordedStep kind change depth d w).forget =
      S.change depth (.component kind change) d w := by
  have heditor (owner : Value) : (Errand.recorded change owner).Alike (fun s w => s.2 = w)
      (change owner).editor := by
    rintro visit s _ rfl
    exact ⟨rfl, rfl, rfl⟩
  rw [change_component]
  exact Edit.Alike.forget_eq (editOwned_alike_editOwned heditor depth rfl)

variable (S) (kind) (change) in
/-- The walk, with its visits written down. -/
def recordedWalk (depth : Nat) (d : Script) (w : Workspace) :
    Edit (List Finding × Workspace) String Script :=
  S.editScript (.component kind) (PlacedEditor.ofChange d change).recorded depth d
    ([], w.enter (some d))

variable (S) (kind) (change) in
/-- **A component step is the editing walk with its transform as the editor.** -/
structure StepIsWalk (depth : Nat) (d : Script) (w : Workspace) : Prop where
  /-- They leave the same script and workspace, and stop for the same reason or not at all. -/
  outcome : S.change depth (.component kind change) d w =
    S.editScript (.component kind) (.ofChange d change) depth d (w.enter (some d))
  /-- If they finish, then what is in the queue is added. -/
  flush :
    let x := S.editScript (.component kind) (.ofChange d change) depth d (w.enter (some d))
    x.stop = none →
      x.value.Flushed x.state.queue (S.runStep depth (.component kind change) d w).script
  /-- One after the other, the errands of the step are for the visits of the walk. -/
  errands : List.Forall₂ (Errand.Answers d) (S.recordedStep kind change depth d w).state.1
    (S.recordedWalk kind change depth d w).state.1
  /-- The first errand is given the workspace with the script to read, and every other one what the
  errand before left. -/
  relay : Relay Errand.workspace (Errand.left change) (w.enter (some d))
    (S.recordedStep kind change depth d w).state.1
    (S.change depth (.component kind change) d w).state
  /-- The script can be read at an errand if those before it have left it to read. -/
  shown : ∀ front errand back,
    (S.recordedStep kind change depth d w).state.1 = front ++ errand :: back →
      (∀ e ∈ front, e.Keeps change) → errand.workspace.before = some d
  /-- So it can always if the transform takes notes and queues, and does nothing else. -/
  always : (∀ owner, (change owner).OnlyQueues) →
    ∀ errand ∈ (S.recordedStep kind change depth d w).state.1, errand.workspace.before = some d
  /-- To write the errands down changes nothing. -/
  step : (S.recordedStep kind change depth d w).forget =
    S.change depth (.component kind change) d w
  /-- To write the visits down changes nothing. -/
  walk : (S.recordedWalk kind change depth d w).forget =
    S.editScript (.component kind) (.ofChange d change) depth d (w.enter (some d))

/-- What a step leaves that finishes. -/
theorem runStep_of_stop_eq_none {depth : Nat} {step : Step} {d : Script} {w : Workspace}
    (h : (S.change depth step d w).stop = none) :
    S.runStep depth step d w =
      ⟨(S.change depth step d w).state.flush (S.change depth step d w).value,
        (S.change depth step d w).state.leave, none⟩ := by
  rw [runStep, h]

/-- **A component step is the editing walk**, whatever its transform does with the workspace, and
every errand comes with the owner as it was when the step began. -/
theorem step_is_walk (S : Schema) (kind : String) (change : (owner : Value) → Transform Value)
    (depth : Nat) {d : Script} (hd : d.entries.Distinct) (w : Workspace) :
    S.StepIsWalk kind change depth d w := by
  have hstep : (S.change depth (.component kind change) d w).Alike (· = ·)
      (S.editScript (.component kind) (.ofChange d change) depth d (w.enter (some d))) :=
    editOwned_alike hd (fun _ name _ ho => editor_alike ho name) depth rfl
  have hwalk : (S.change depth (.component kind change) d w).Alike (fun w t => w = t.2)
      (S.recordedWalk kind change depth d w) :=
    editOwned_alike hd (fun _ name _ ho => editor_alike_recorded ho name) depth rfl
  have herrands : (S.recordedStep kind change depth d w).Alike
      (fun s t => s.2 = t.2 ∧
        Relay Errand.workspace (Errand.left change) (w.enter (some d)) s.1 s.2 ∧
          List.Forall₂ (Errand.Answers d) s.1 t.1)
      (S.recordedWalk kind change depth d w) :=
    editOwned_alike hd (fun _ name _ ho => recorded_alike_recorded ho name _) depth
      ⟨rfl, .done _, .nil⟩
  have outcome := hstep.eq
  have relay : Relay Errand.workspace (Errand.left change) (w.enter (some d))
      (S.recordedStep kind change depth d w).state.1
      (S.change depth (.component kind change) d w).state := by
    rw [← forget_recordedStep]
    exact herrands.state.2.1
  refine
    { outcome := outcome
      flush := fun hs => ?_
      errands := herrands.state.2.2
      relay := relay
      shown := fun front errand back he hk => relay.before rfl he hk
      always := fun hq errand he => relay.before_of_mem rfl (fun e _ => e.keeps_of_onlyQueues hq) he
      step := forget_recordedStep change depth d w
      walk := ?_ }
  · rw [← outcome] at hs ⊢
    rw [runStep_of_stop_eq_none hs]
    exact Script.pushAll_flushed _ _
  · rw [← outcome]
    exact (Edit.Alike.eq ⟨hwalk.value, hwalk.state, hwalk.stop⟩).symm

end Step

/-- The change that makes a cue a line, whatever it was, notes its scene as the last one and queues
the scene once more. -/
def toLine (owner : Value) : Transform Value
  | w, .object es =>
    ⟨.object (Entries.put es "type" (.string "line")), w.scratch.put "last" owner,
      .queues [("scenes", owner)], none⟩
  | w, v => ⟨v, w.scratch, .queues [], some "not a cue"⟩

theorem step_is_walk_twoScenes : twoScenes.entries.Distinct ∧
    scenes.StepIsWalk "cue" toLine 8 twoScenes (.start none) :=
  have hd : twoScenes.entries.Distinct := by decide
  ⟨hd, step_is_walk scenes "cue" toLine 8 hd (.start none)⟩

-- the cue within the block is passed over, as the block is a line by then
example : (scenes.recordedStep "cue" toLine 8 twoScenes (.start none)).state.1.length = 2 := by cbv

/-- The change that leaves every cue as it is, and a new workspace in the place of the one that it
found. -/
def startAfresh (_ : Value) : Transform Value :=
  fun _ v => ⟨v, [], .replaces none none [], none⟩

/-- The change that leaves everything as it is. -/
def bystand (_ : Value) : Transform Value := fun w v => ⟨v, w.scratch, .queues [], none⟩

/-- Not all of a list have the same to show if one has nothing to show. -/
theorem not_forall_eq_some {α β : Type} {l : List α} {f : α → Option β} {b : β}
    (h : l.all (fun a => (f a).isSome) = false) : ¬ ∀ a ∈ l, f a = some b := by
  intro hb
  have hall : l.all (fun a => (f a).isSome) = true :=
    List.all_eq_true.2 fun a ha => Option.isSome_of_eq_some (hb a ha)
  exact Bool.false_ne_true (h.symm.trans hall)

/-- A transform may put something else in the place of the script to read. And a step that queues
nothing adds to the script what the steps before it have left in the queue. -/
theorem not_shown_throughout :
    (¬ ∀ (S : Schema) kind change depth (d : Script) w, d.entries.Distinct →
      ∀ errand ∈ (S.recordedStep kind change depth d w).state.1,
        errand.workspace.before = some d) ∧
    ¬ ∀ (S : Schema) kind change depth (d : Script) w, d.entries.Distinct →
      (∀ owner w v, (change owner w v).handling = .queues []) →
        (S.runStep depth (.component kind change) d w).stop = none →
          (S.runStep depth (.component kind change) d w).script =
            (S.editScript (.component kind) (.ofChange d change) depth d
              (w.enter (some d))).value := by
  have hd : twoScenes.entries.Distinct := by decide
  constructor
  · intro h
    have hnone : (scenes.recordedStep "cue" startAfresh 8 twoScenes (.start none)).state.1.all
        (·.workspace.before.isSome) = false := by cbv
    exact not_forall_eq_some hnone (h scenes "cue" startAfresh 8 twoScenes (.start none) hd)
  · intro h
    have hs : (scenes.runStep 8 (.component "cue" bystand) twoScenes .oneQueued).stop = none := by
      cbv
    have hsame := h scenes "cue" bystand 8 twoScenes .oneQueued hd (fun _ _ _ => rfl) hs
    have hkeys := congrArg (fun d => (d.get? "notes").isSome) hsame
    have hadded : ((scenes.runStep 8 (.component "cue" bystand) twoScenes .oneQueued).script.get?
        "notes").isSome = true := by cbv
    have habsent : ((scenes.editScript (.component "cue") (.ofChange twoScenes bystand) 8 twoScenes
        (Workspace.oneQueued.enter (some twoScenes))).value.get? "notes").isSome = false := by cbv
    exact absurd (hadded.symm.trans (hkeys.trans habsent)) (by decide)

end Schema

end ScriptSchema
