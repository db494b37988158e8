import ScriptSchema.Proofs.Errand

/-!
# Collection steps, turn by turn

A collection step hands the resources of a collection to its transform one after the other. Each
turn begins with the workspace as the turn before has left it, so that the script to read stays as
it was when the step began until a turn puts another one in its place. What is in the queue in the
end is added when all resources have had their turn, also to the very collection that they are
from.

* `Turn`, `Transform.turns`: what a transform is handed in the course of a step;
* `Transform.recorded`, `Schema.recordedCollection`: the step with its turns written down;
* `members_recorded_eq`: one turn after the other, if none fails;
* `relay_turns`: what is handed over at each turn;
* `Schema.InTurns`, **`collection_in_turns`**: what a step does and leaves;
* `not_in_frozen_turns`: a turn may read something else than the script, and a step without a
  collection may change the script.
-/

namespace ScriptSchema

/-- What a transform is handed at one of its turns. -/
structure Turn where
  workspace : Workspace
  value : Value

namespace Turn

variable (change : Transform Value)

/-- What the transform leaves at the turn. -/
def effect (t : Turn) : Effect Value := change t.workspace t.value

/-- The workspace as the transform leaves it at the turn. -/
def left (t : Turn) : Workspace := t.workspace.absorb (t.effect change)

/-- The transform leaves the script to read that it found. -/
def Keeps (t : Turn) : Prop := (t.left change).before = t.workspace.before

section OnlyQueues

variable {change : Transform Value} (h : change.OnlyQueues) (t : Turn)
include h

theorem keeps_of_onlyQueues : t.Keeps change := by
  rw [Keeps, left, effect, h.absorb]

theorem queue_left_of_onlyQueues :
    (t.left change).queue = t.workspace.queue ++ (t.effect change).queued := by
  rw [left, effect, h.absorb]

end OnlyQueues

end Turn

namespace Transform

variable (change : Transform Value)

/-- The turns of some resources, each with the workspace that the one before left. -/
def turns (w : Workspace) : List Value → List Turn
  | [] => []
  | v :: vs => ⟨w, v⟩ :: turns (w.absorb (change w v)) vs

/-- The transform, which also writes down its turns. -/
def recorded (v : Value) (s : List Turn × Workspace) : Edit (List Turn × Workspace) String Value :=
  let x := change.run v s.2
  ⟨x.value, (s.1 ++ [⟨s.2, v⟩], x.state), x.stop⟩

end Transform

/-- The workspace after some turns. -/
def Workspace.absorbAll (w : Workspace) (effects : List (Effect Value)) : Workspace :=
  effects.foldl Workspace.absorb w

/-! ## One turn after the other -/

section Turns

variable (change : Transform Value)

/-- Every resource has its turn, once, and nothing else has. -/
theorem map_value_turns (w : Workspace) (vs : List Value) :
    (change.turns w vs).map Turn.value = vs := by
  induction vs generalizing w with
  | nil => rfl
  | cons v vs ih => exact congrArg (v :: ·) (ih _)

/-- **Every turn begins with what the one before left.** -/
theorem relay_turns (w : Workspace) (vs : List Value) :
    Relay Turn.workspace (Turn.left change) w (change.turns w vs)
      (w.absorbAll ((change.turns w vs).map (Turn.effect change))) := by
  induction vs generalizing w with
  | nil => exact .done w
  | cons v vs ih => exact .call ⟨w, v⟩ (ih _)

/-- To write the turns down changes nothing, wherever the step ends. -/
theorem members_recorded_alike (index : Nat) (vs : List Value) (s : List Turn × Workspace) :
    (Edit.members (fun _ => change.recorded) index vs s).Alike (fun s w => s.2 = w)
      (Edit.members (fun _ => change.run) index vs s.2) := by
  refine .members (fun m _ s w hs => ?_) rfl
  subst hs
  exact ⟨rfl, rfl, rfl⟩

/-- A turn that does not fail leaves what the transform leaves. -/
theorem recorded_eq_keep {v : Value} {s : List Turn × Workspace}
    (h : (change s.2 v).failure = none) :
    change.recorded v s =
      .keep (change s.2 v).value (s.1 ++ [⟨s.2, v⟩], s.2.absorb (change s.2 v)) := by
  unfold Transform.recorded Transform.run
  dsimp only
  rw [h]
  rfl

/-- **One turn after the other**: if no turn fails, each leaves its resource in place, and the
workspace is handed on. -/
theorem members_recorded_eq (index : Nat) (vs : List Value) (s : List Turn × Workspace)
    (h : (Edit.members (fun _ => change.recorded) index vs s).stop = none) :
    (∀ t ∈ change.turns s.2 vs, (t.effect change).failure = none) ∧
      Edit.members (fun _ => change.recorded) index vs s =
        .keep ((change.turns s.2 vs).map fun t => (t.effect change).value)
          (s.1 ++ change.turns s.2 vs,
            s.2.absorbAll ((change.turns s.2 vs).map (Turn.effect change))) := by
  induction vs generalizing index s with
  | nil =>
    refine ⟨nofun, ?_⟩
    rw [Transform.turns, List.append_nil]
    rfl
  | cons v vs ih =>
    rw [Edit.members_cons] at h ⊢
    rcases hf : (change s.2 v).failure with _ | text
    · rw [recorded_eq_keep change hf] at h ⊢
      obtain ⟨hrest, heq⟩ := ih _ _ h
      refine ⟨List.forall_mem_cons.2 ⟨hf, hrest⟩, ?_⟩
      dsimp only [Edit.proceed, Edit.keep] at heq ⊢
      rw [heq, List.append_assoc]
      rfl
    · -- the run would stop at this turn
      have hstop : (change.recorded v s).stop = some (.raised text) := congrArg (Option.map _) hf
      rw [Edit.proceed, hstop] at h
      cases h

end Turns

/-! ## The step -/

namespace Schema

variable (S : Schema)

/-- What a collection step changes, with its turns written down. -/
def recordedCollection (name : String) (change : Transform Value) (d : Script) (w : Workspace) :
    Edit (List Turn × Workspace) String Script :=
  match d.array? name with
  | none => .keep d ([], w)
  | some resources =>
    (Edit.members (fun _ => change.recorded) 0 resources ([], w.enter (some d))).map fun vs =>
      d.put name (.array vs)

theorem recordedCollection_forget (name : String) (change : Transform Value) (depth : Nat)
    (d : Script) (w : Workspace) :
    (recordedCollection name change d w).forget =
      S.change depth (.collection name change) d w := by
  rw [Schema.change, changeCollection, recordedCollection]
  rcases d.array? name with _ | vs
  · rfl
  · exact Edit.Alike.forget_eq ((members_recorded_alike change 0 vs _).map _)

/-- **A collection step in turns**: of a step through the given resources, what happens at the turns
and what they leave. -/
structure InTurns (name : String) (change : Transform Value) (depth : Nat) (d : Script)
    (w : Workspace) (resources : List Value) (turns : List Turn) : Prop where
  /-- To write the turns down changes nothing. -/
  forget : (recordedCollection name change d w).forget =
    S.change depth (.collection name change) d w
  /-- Every resource has its turn, once and in order, and nothing else has. -/
  values : turns.map Turn.value = resources
  /-- The first turn begins with the workspace and the script to read, and every other one with what
  the turn before left. -/
  relay : Relay Turn.workspace (Turn.left change) (w.enter (some d)) turns
    (S.change depth (.collection name change) d w).state
  /-- The script can be read at a turn if those before it have left it to read. -/
  shown : ∀ front t back, turns = front ++ t :: back → (∀ u ∈ front, u.Keeps change) →
    t.workspace.before = some d
  succeeds : ∀ t ∈ turns, (t.effect change).failure = none
  /-- Every resource gives way to what its turn left, and then the queue is flushed. -/
  script : (d.put name (.array (turns.map fun t => (t.effect change).value))).Flushed
    (S.change depth (.collection name change) d w).state.queue
    (S.runStep depth (.collection name change) d w).script
  /-- If the turns only add to the queue, all that they add is in there, turn by turn. -/
  queue : ∀ queued : Turn → List (String × Value),
    (∀ t ∈ turns, (t.left change).queue = t.workspace.queue ++ queued t) →
      (S.change depth (.collection name change) d w).state.queue = w.queue ++ turns.flatMap queued
  /-- A transform that takes notes and queues, and does nothing else, can read the script at every
  turn, and all that it queues is added. -/
  always : change.OnlyQueues → (∀ t ∈ turns, t.workspace.before = some d) ∧
    (S.change depth (.collection name change) d w).state.queue =
      w.queue ++ turns.flatMap fun t => (t.effect change).queued

variable {S}

section Step

variable {name : String} {change : Transform Value} {d : Script} {w : Workspace}

/-- The whole of a step that succeeds, from its turns. -/
theorem recordedCollection_eq {resources : List Value} (ha : d.array? name = some resources)
    (hs : (recordedCollection name change d w).stop = none) :
    let turns := change.turns (w.enter (some d)) resources
    (∀ t ∈ turns, (t.effect change).failure = none) ∧
      recordedCollection name change d w =
        .keep (d.put name (.array (turns.map fun t => (t.effect change).value)))
          (turns, (w.enter (some d)).absorbAll (turns.map (Turn.effect change))) := by
  rw [recordedCollection, ha] at hs ⊢
  obtain ⟨hf, heq⟩ := members_recorded_eq change 0 resources ([], w.enter (some d)) hs
  refine ⟨hf, ?_⟩
  dsimp only
  rw [heq]
  rfl

theorem recordedCollection_of_array?_eq_none (ha : d.array? name = none) :
    recordedCollection name change d w = .keep d ([], w) := by
  rw [recordedCollection, ha]

/-- Through the resources of an array, turn by turn. -/
theorem inTurns_of_array? (S : Schema) (depth : Nat) {resources : List Value}
    (ha : d.array? name = some resources)
    (hs : (S.runStep depth (.collection name change) d w).stop = none) :
    S.InTurns name change depth d w resources (recordedCollection name change d w).state.1 := by
  have hforget := S.recordedCollection_forget name change depth d w
  let turns := change.turns (w.enter (some d)) resources
  have hstop : (recordedCollection name change d w).stop = none := by
    rw [runStep_stop, ← hforget] at hs
    exact hs
  obtain ⟨hf, hrec⟩ := recordedCollection_eq ha hstop
  have hturns : (recordedCollection name change d w).state.1 = turns := by
    rw [hrec]
    rfl
  have hchange : S.change depth (.collection name change) d w =
      .keep (d.put name (.array (turns.map fun t => (t.effect change).value)))
        ((w.enter (some d)).absorbAll (turns.map (Turn.effect change))) := by
    rw [← hforget, hrec]
    rfl
  have hrelay : Relay Turn.workspace (Turn.left change) (w.enter (some d)) turns
      (S.change depth (.collection name change) d w).state := by
    rw [hchange]
    exact relay_turns change _ resources
  rw [hturns]
  refine
    { forget := hforget
      values := map_value_turns change _ resources
      relay := hrelay
      shown := fun front t back ht hk => hrelay.before rfl ht hk
      succeeds := hf
      script := ?_
      queue := fun queued hq => hrelay.queue hq
      always := fun ho => ⟨fun t ht => ?_, hrelay.queue fun t _ => t.queue_left_of_onlyQueues ho⟩ }
  · rw [runStep_stop] at hs
    rw [runStep_of_stop_eq_none hs, hchange]
    exact Script.pushAll_flushed _ _
  · exact hrelay.before_of_mem rfl (fun u _ => u.keeps_of_onlyQueues ho) ht

/-- Without an array only the queue is flushed. -/
theorem runStep_of_array?_eq_none (S : Schema) (depth : Nat) (ha : d.array? name = none) :
    S.runStep depth (.collection name change) d w = ⟨w.flush d, w.leave, none⟩ := by
  have hchange : S.change depth (.collection name change) d w = .keep d w := by
    rw [← recordedCollection_forget, recordedCollection_of_array?_eq_none ha]
    rfl
  have hs : (S.change depth (.collection name change) d w).stop = none := by
    rw [hchange]
    rfl
  rw [runStep_of_stop_eq_none hs, hchange]
  rfl

end Step

/-- **What a collection step does**, whatever its transform does with the workspace: if it succeeds,
it goes through the resources that are there when it begins, turn by turn, and without the
collection it leaves the script as it is but for what is in the queue already. -/
theorem collection_in_turns (S : Schema) (name : String) (change : Transform Value) (depth : Nat)
    (d : Script) (w : Workspace) :
    (∀ resources, d.array? name = some resources →
      (S.runStep depth (.collection name change) d w).stop = none →
        S.InTurns name change depth d w resources (recordedCollection name change d w).state.1) ∧
    (d.array? name = none →
      (recordedCollection name change d w).state.1 = [] ∧
        d.Flushed w.queue (S.runStep depth (.collection name change) d w).script ∧
          (w.queue = [] →
            S.runStep depth (.collection name change) d w = ⟨d, w.leave, none⟩)) := by
  refine ⟨fun resources ha hs => inTurns_of_array? S depth ha hs, fun ha => ⟨?_, ?_, fun hq => ?_⟩⟩
  · rw [recordedCollection_of_array?_eq_none ha]
    rfl
  · rw [runStep_of_array?_eq_none S depth ha]
    exact d.pushAll_flushed w.queue
  · rw [runStep_of_array?_eq_none S depth ha, Workspace.flush, hq]
    rfl

/-- The change that numbers the scenes and adds every scene once more, as it was, to the scenes and
to a backup. -/
def renumber (w : Workspace) : Value → Effect Value
  | .object es =>
    let seen := ((w.scratch.lookup "seen").bind Value.array?).getD []
    ⟨.object (Entries.put es "order" (.ofUInt64 (UInt64.ofNat seen.length))),
      w.scratch.put "seen" (.array (seen ++ [.object es])),
      .queues [("backup", .object es), ("scenes", .object es)], none⟩
  | v => ⟨v, w.scratch, .queues [], some "not a scene"⟩

theorem collection_in_turns_twoScenes :
    twoScenes.array? "scenes" = some (twoScenes.collection "scenes") ∧
    (scenes.runStep 8 (.collection "scenes" renumber) twoScenes (.start none)).stop = none ∧
    scenes.InTurns "scenes" renumber 8 twoScenes (.start none) (twoScenes.collection "scenes")
      (recordedCollection "scenes" renumber twoScenes (.start none)).state.1 :=
  have hs : (scenes.runStep 8 (.collection "scenes" renumber) twoScenes (.start none)).stop =
    none := by cbv
  ⟨rfl, hs, (collection_in_turns scenes "scenes" renumber 8 twoScenes (.start none)).1 _ rfl hs⟩

-- the two scenes have their turns, and their copies have none
example : ((recordedCollection "scenes" renumber twoScenes (.start none)).state.1.length,
    ((scenes.runStep 8 (.collection "scenes" renumber) twoScenes (.start none)).script.collection
      "scenes").length) = (2, 4) := by cbv

/-- A turn may put something else in the place of the script to read. And without the collection a
step adds what the steps before it have left in the queue. -/
theorem not_in_frozen_turns :
    (¬ ∀ (S : Schema) name change depth (d : Script) w resources, w.queue = [] →
      d.array? name = some resources →
        (S.runStep depth (.collection name change) d w).stop = none →
          ∀ t ∈ (recordedCollection name change d w).state.1, t.workspace.before = some d) ∧
    ¬ ∀ (S : Schema) name change depth (d : Script) w, d.array? name = none →
      (S.runStep depth (.collection name change) d w).script = d := by
  constructor
  · intro h
    have hs : (scenes.runStep 8 (.collection "scenes" (startAfresh .null)) twoScenes
        (.start none)).stop = none := by cbv
    have hnone : (recordedCollection "scenes" (startAfresh .null) twoScenes
        (.start none)).state.1.all (·.workspace.before.isSome) = false := by cbv
    exact not_forall_eq_some hnone
      (h scenes "scenes" (startAfresh .null) 8 twoScenes (.start none) _ rfl rfl hs)
  · intro h
    have hsame := h scenes "pages" (bystand .null) 8 twoScenes .oneQueued rfl
    have hkeys := congrArg (fun d => (d.get? "notes").isSome) hsame
    have hadded : ((scenes.runStep 8 (.collection "pages" (bystand .null)) twoScenes
        .oneQueued).script.get? "notes").isSome = true := by cbv
    have habsent : (twoScenes.get? "notes").isSome = false := by cbv
    exact absurd (hadded.symm.trans (hkeys.trans habsent)) (by decide)

end Schema

end ScriptSchema
