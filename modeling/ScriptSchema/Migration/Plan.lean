import ScriptSchema.Migration.Step

/-!
# Migrations

A migration is a numbered list of steps. A script of version `n` is brought up to date by the
migrations with a number above `n`, in the order of their numbers, and its version becomes the
number of each in turn.

* `Migration`, `Sample`: a migration with examples of what it does;
* `MigrationFault`;
* `Plan`, `Plan.build`: migrations in order, for a schema;
* **`Plan.migrate`**: a script brought up to date;
* `Plan.checkSamples`: whether a migration does what its samples say.
-/

namespace ScriptSchema

/-- A script before a migration and after it. -/
structure Sample where
  before : Value
  after : Value
  assets : Option Value

/-- A numbered list of steps. -/
structure Migration where
  num : UInt64
  name : String
  steps : List Step
  samples : List Sample

/-- Why scripts cannot be migrated. -/
inductive MigrationFault where
  /-- A step of a migration stopped early. -/
  | failed (num : UInt64) (name : String) (cause : Stop String)
  | repeatedNumber (num : UInt64)
  | sampleMismatch (num : UInt64) (name : String) (index : Nat)
  /-- There is a `meta` block, but no version in it. -/
  | invalidMeta
  | schema (e : SchemaFault)

/-- How the reason reads for which a step stopped early. -/
def Stop.message : Stop String → String
  | schema e => e.message
  | raised text => text
  | tooDeep => "too deep"

/-- How an error reads. -/
def MigrationFault.message : MigrationFault → String
  | failed num name cause => s!"Migration {num} ({name}) failed: " ++ cause.message
  | repeatedNumber num => s!"Duplicate migration number {num}"
  | sampleMismatch num name index =>
    s!"Migration {num} ({name}) fixture {index} does not match its expected output"
  | invalidMeta => "Invalid meta block: version must be a non-negative integer"
  | schema e => e.message

/-! ## Migrations in order -/

namespace Migration

/-- Migrations in the order of their numbers. -/
def sort (ms : List Migration) : List Migration := ms.mergeSort fun a b => decide (a.num ≤ b.num)

/-- The first number that two migrations next to each other share. -/
def repeated? : List Migration → Option UInt64
  | a :: b :: ms => if a.num = b.num then some a.num else repeated? (b :: ms)
  | _ => none

/-- The kind of a component step that the schema does not have, if there is one. -/
def unknownKind? (S : Schema) (ms : List Migration) : Option String :=
  (ms.flatMap Migration.steps).findSome? fun
    | .component kind _ => if (S.components.find? kind).isNone then some kind else none
    | _ => none

end Migration

/-- The migrations of the scripts of a schema, in the order of their numbers. -/
structure Plan where
  schema : Schema
  /-- How deep a component step may go into a resource. -/
  depth : Nat
  migrations : List Migration

namespace Plan

/-- Puts migrations in order, if no number repeats and every component step has a component. -/
def build (S : Schema) (depth : Nat) (ms : List Migration) : Except MigrationFault Plan :=
  let sorted := Migration.sort ms
  match Migration.repeated? sorted, Migration.unknownKind? S sorted with
  | some num, _ => .error (.repeatedNumber num)
  | none, some kind => .error (.schema (.unknownComponent kind))
  | none, none => .ok ⟨S, depth, sorted⟩

variable (m : Plan)

/-- The highest number, or zero without migrations. -/
def latest : UInt64 := (m.migrations.getLast?.map Migration.num).getD 0

/-- The migrations that a script of a version still needs, in order. -/
def pending (version : UInt64) : List Migration := m.migrations.filter fun a => version < a.num

/-- Runs the steps of a migration. The version stays as it is. -/
def run (a : Migration) (d : Script) (w : Workspace) : Progress :=
  m.schema.runSteps m.depth a.steps d w

/-- Applies a migration to a script: its steps, in a workspace of their own, and its number as
the version. -/
def apply (assets : Option Value) (d : Script) (a : Migration) : Except MigrationFault Script :=
  let p := m.run a d (.start assets)
  match p.stop with
  | some cause => .error (.failed a.num a.name cause)
  | none => .ok (p.script.withVersion a.num)

/-- The script as migrations find it, and its version, which is zero without a `meta` block. -/
def entry (d : Script) : Except MigrationFault (Script × UInt64) :=
  match d.get? Script.metaKey with
  | none => .ok (d.withVersion 0, 0)
  | some _ =>
    match d.version? with
    | some version => .ok (d, version)
    | none => .error .invalidMeta

/-- **A script brought up to date.** -/
def migrate (d : Script) (assets : Option Value) : Except MigrationFault Script := do
  let (d, version) ← entry d
  (m.pending version).foldlM (m.apply assets) d

/-! ## Samples -/

/-- The migration does what the sample says; the order of entries does not count. -/
def checkSample (a : Migration) (sample : Sample) (index : Nat) : Except MigrationFault Unit :=
  match Script.ofValue? sample.before with
  | none => .error (.sampleMismatch a.num a.name index)
  | some d =>
    let p := m.run a d (.start sample.assets)
    match p.stop with
    | some cause => .error (.failed a.num a.name cause)
    | none =>
      if p.script.value.same sample.after then .ok ()
      else .error (.sampleMismatch a.num a.name index)

/-- The migration does what its samples say. -/
def checkSamples (a : Migration) : Except MigrationFault Unit :=
  a.samples.zipIdx.forM fun (sample, index) => m.checkSample a sample index

end Plan

end ScriptSchema
