import ScriptSchema.Path
import ScriptSchema.Schema.Basic

/-!
# Checking a schema

A schema is sound if every component that it names is registered and every enum has options.

* `Schema.checkShape`, `Schema.checkFields`: a part of the schema;
* `Schema.check`: all of it, up to the first fault.
-/

namespace ScriptSchema

namespace Schema

variable (S : Schema)

mutual

/-- The first fault of a spec at a path. -/
def checkShape (path : String) : Spec → Except SchemaFault Unit
  | .terminal (.scalar _) _ => .ok ()
  | .terminal (.reference _ _ _) _ => .ok ()
  | .terminal (.enum options) _ => if options.isEmpty then .error (.emptyEnum path) else .ok ()
  | .terminal (.instanceId kind) _ => (S.component kind).map fun _ => ()
  | .component kind _ => (S.component kind).map fun _ => ()
  | .list items _ => checkShape (Path.entry path "") items
  | .dictionary keys values _ => do
    checkShape (Path.entry path "key") keys
    checkShape (Path.entry path "value") values
  | .object fields _ => checkFields path fields

/-- The first fault of some fields below a path. -/
def checkFields (path : String) : List (String × Spec) → Except SchemaFault Unit
  | [] => .ok ()
  | (name, spec) :: fields => do
    checkShape (path ++ "." ++ name) spec
    checkFields path fields

end

/-- The first fault of a component: its shared fields first, then each variant with all its
fields. -/
def checkComponent (kind : String) (c : Component) : Except SchemaFault Unit := do
  S.checkFields kind c.shared
  c.variants.keys.forM fun variant =>
    S.checkFields (kind ++ "." ++ variant) (c.classNamed variant).fields

/-- **The first fault of a schema**: of a resource type, of a component, or a kind that unique ids
are asked for. -/
def check : Except SchemaFault Unit := do
  S.resources.entries.forM fun (type, c) => S.checkFields type c.fields
  S.components.entries.forM fun (kind, c) => S.checkComponent kind c
  S.idFields.forM fun (kind, _) => (S.component kind).map fun _ => ()

end Schema

end ScriptSchema
