import ScriptSchema.Migration.Plan
import ScriptSchema.Schema.Check
import ScriptSchema.Report.Conformance

/-!
# The workbench

A schema, its migrations and the settings put together: what an authoring tool asks for.

* `Settings`, `Workbench`, `Workbench.build`;
* `Workbench.validate`, `Workbench.resourceIssues`: against the version that scripts should have;
* `Workbench.pending`, `Workbench.migrate`.
-/

namespace ScriptSchema

/-- What can be set. -/
structure Settings where
  /-- The version that scripts should have; if absent, the latest one. -/
  version : Option UInt64
  /-- Collections of no registered type must be empty. -/
  refuseUnknown : Bool
deriving DecidableEq

/-- The settings if nothing is said. -/
def Settings.default : Settings := ⟨none, true⟩

/-- A sound schema with migrations and settings. -/
structure Workbench where
  schema : Schema
  plan : Plan
  settings : Settings

namespace Workbench

/-- Checks a schema and puts the migrations in order. -/
def build (S : Schema) (depth : Nat) (ms : List Migration) (settings : Settings) :
    Except MigrationFault Workbench := do
  (S.check).mapError .schema
  let plan ← Plan.build S depth ms
  return ⟨S, plan, settings⟩

variable (b : Workbench)

/-- The version that scripts should have. -/
def version : UInt64 := b.settings.version.getD b.plan.latest

/-- What is asked of a script. -/
def requirements : Requirements := ⟨b.version, b.settings.refuseUnknown⟩

/-- Whether a script is as it should be. -/
def validate (d : Script) : Except Refusal Unit := b.schema.validate d b.requirements

/-- What is wrong with a resource, as a member of a collection of a script. -/
def resourceIssues (d : Script) (collection : String) (resource : Value) :
    Except SchemaFault (List Issue) :=
  b.schema.resourceIssues d collection resource

/-- The migrations that a script still needs, in order. -/
def pending (d : Script) : List Migration := b.plan.pending (d.version?.getD 0)

/-- A script brought up to date. -/
def migrate (d : Script) (assets : Option Value) : Except MigrationFault Script :=
  b.plan.migrate d assets

end Workbench

end ScriptSchema
