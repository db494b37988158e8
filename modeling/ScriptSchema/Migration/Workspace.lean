import ScriptSchema.Script

/-!
# The workspace of a migration

A transform is handed one value, and the workspace of the migration that it belongs to. There it
finds what it may know beside the value, and there it may leave something for later. As a rule it
takes notes and queues resources; but the workspace is in its hands, and it may as well leave
another one in its place.

* `Workspace`: what lasts from one transform to the next;
* `Workspace.enter`, `Workspace.leave`: the two ends of a step;
* `Transform`, `Effect`, `Handling`: a transform, and what it leaves;
* `Workspace.absorb`: the workspace after a transform.
-/

namespace ScriptSchema

/-- What lasts from one transform of a migration to the next. -/
structure Workspace where
  /-- Data from outside, such as a list of uploads. -/
  assets : Option Value
  /-- The script as it was when the step began; absent if the step is handed the script itself. -/
  before : Option Script
  /-- Notes of the transforms before it, in all steps of the migration. -/
  scratch : Entries Value
  /-- Resources to add, with their collections, once the step is done. -/
  queue : List (String × Value)

namespace Workspace

/-- The workspace of a migration that has not begun. -/
def start (assets : Option Value) : Workspace := ⟨assets, none, [], []⟩

/-- A step begins. -/
def enter (w : Workspace) (before : Option Script) : Workspace := { w with before := before }

/-- The script with all queued resources added, in order. -/
def flush (w : Workspace) (d : Script) : Script := w.queue.foldl (fun d r => d.push r.1 r.2) d

/-- What lasts when a step is done and the queue has been flushed. -/
def leave (w : Workspace) : Workspace := { w with before := none, queue := [] }

end Workspace

/-! ## Transforms -/

/-- What a transform finds beside its value: the whole workspace. -/
abbrev View := Workspace

/-- What a transform does with the workspace, apart from its notes. -/
inductive Handling where
  /-- It adds resources to the queue, and leaves the rest as it is. -/
  | queues (resources : List (String × Value))
  /-- It leaves another workspace, which shows other assets and another script, or none, and has
  another queue. -/
  | replaces (assets : Option Value) (before : Option Script) (queue : List (String × Value))

instance : Coe (List (String × Value)) Handling := ⟨.queues⟩

/-- What a transform leaves. -/
structure Effect (α : Type) where
  value : α
  scratch : Entries Value
  handling : Handling
  failure : Option String

/-- A change of a value, with the workspace in hand. -/
abbrev Transform (α : Type) := View → α → Effect α

/-- The workspace as a transform leaves it. -/
def Workspace.absorb {α : Type} (w : Workspace) (e : Effect α) : Workspace :=
  match e.handling with
  | .queues resources => { w with scratch := e.scratch, queue := w.queue ++ resources }
  | .replaces assets before queue => ⟨assets, before, e.scratch, queue⟩

end ScriptSchema
