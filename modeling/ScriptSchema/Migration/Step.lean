import ScriptSchema.Migration.Workspace
import ScriptSchema.Visit.Edit

/-!
# Steps of a migration

A step applies a transform to the whole script, to every resource of a collection, or to every
instance of a component, however deeply it is nested. What is in the queue of the workspace then is
added when the step is done, so that the step itself does not come across it.

* `Step`, `Step.subject`;
* `Progress`: the script and the workspace that steps leave, also when one fails;
* `Schema.runStep`, `Schema.runSteps`.
-/

namespace ScriptSchema

/-- One step of a migration. -/
inductive Step where
  | script (change : Transform Script)
  | collection (name : String) (change : Transform Value)
  /-- The change of an instance is given the resource that owns it, as that was before the step came
  to it. -/
  | component (kind : String) (change : (owner : Value) → Transform Value)

namespace Step

/-- What a step applies to. -/
def subject : Step → String
  | script _ => "document"
  | collection name _ => "collection " ++ name
  | component kind _ => "component " ++ kind

/-- How a step is shown. -/
def text (step : Step) : String := "Transformation(" ++ step.subject ++ ")"

end Step

namespace Transform

/-- Applies a transform in a workspace. -/
def run {α : Type} (change : Transform α) (a : α) (w : Workspace) : Edit Workspace String α :=
  let e := change w a
  ⟨e.value, w.absorb e, e.failure.map .raised⟩

/-- A transform of values as an editor that carries the workspace along. -/
def editor (change : Transform Value) : Editor Workspace String := fun visit w =>
  let e := change w visit.value
  ⟨e.value, w.absorb e, e.failure⟩

end Transform

/-- How far some steps have come. -/
structure Progress where
  script : Script
  workspace : Workspace
  stop : Option (Stop String)

namespace Schema

variable (S : Schema)

/-- Applies a transform to the whole script. -/
def changeScript (change : Transform Script) (d : Script) (w : Workspace) :
    Edit Workspace String Script :=
  change.run d (w.enter none)

/-- Applies a transform to every resource of a collection; without the array there is nothing to
do. -/
def changeCollection (name : String) (change : Transform Value) (d : Script) (w : Workspace) :
    Edit Workspace String Script :=
  match d.array? name with
  | none => .keep d w
  | some resources =>
    (Edit.members (fun _ => change.run) 0 resources (w.enter (some d))).map fun vs =>
      d.put name (.array vs)

/-- Applies a transform to the instances of a component in one resource. -/
def changeInstances (kind : String) (change : Value → Transform Value) (depth : Nat) (type : String)
    (resource : Value) (w : Workspace) : Edit Workspace String Value :=
  S.editResource (.component kind) (change resource).editor depth type resource w

/-- Applies a transform to the instances of a component in one entry of a script. -/
def changeEntry (kind : String) (change : Value → Transform Value) (depth : Nat)
    (entry : String × Value) (w : Workspace) : Edit Workspace String (String × Value) :=
  if entry.1 = Script.metaKey then .keep entry w
  else
    match S.resourceFor? entry.1, entry.2 with
    | some (type, _), .array vs =>
      (Edit.members (fun _ => S.changeInstances kind change depth type) 0 vs w).map
        fun vs => (entry.1, .array vs)
    | _, _ => .keep entry w

/-- Applies a transform to the instances of a component in a script. -/
def changeComponents (kind : String) (change : Value → Transform Value) (depth : Nat) (d : Script)
    (w : Workspace) : Edit Workspace String Script :=
  (Edit.members (fun _ => S.changeEntry kind change depth) 0 d.entries
    (w.enter (some d))).map .mk

/-- What a step changes, before the queue is flushed. -/
def change (depth : Nat) (step : Step) (d : Script) (w : Workspace) :
    Edit Workspace String Script :=
  match step with
  | .script f => changeScript f d w
  | .collection name f => changeCollection name f d w
  | .component kind f => S.changeComponents kind f depth d w

/-- **Runs a step**: its changes, and then what is in the queue. A step that stops early leaves its
changes in the script and the queue in the workspace. -/
def runStep (depth : Nat) (step : Step) (d : Script) (w : Workspace) : Progress :=
  let x := S.change depth step d w
  match x.stop with
  | some e => ⟨x.value, x.state, some e⟩
  | none => ⟨x.state.flush x.value, x.state.leave, none⟩

/-- **Runs steps** one after the other, up to the first that stops early. -/
def runSteps (depth : Nat) : List Step → Script → Workspace → Progress
  | [], d, w => ⟨d, w, none⟩
  | step :: steps, d, w =>
    let p := S.runStep depth step d w
    match p.stop with
    | some _ => p
    | none => runSteps depth steps p.script p.workspace

end Schema

end ScriptSchema
