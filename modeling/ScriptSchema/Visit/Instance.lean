import ScriptSchema.Visit.Walk

/-!
# Instances of components

* `Instance`: an instance of a component, with the resource that owns it;
* `Schema.instances`: all instances of a kind in a script;
* **`Schema.locate`**: the instance of a kind with an id.
-/

namespace ScriptSchema

/-- An instance of a component. -/
structure Instance where
  /-- The resource that owns the instance. -/
  place : Place
  resource : Value
  /-- Where in the resource the instance lies. -/
  path : String
  value : Value

/-- The whole number that an instance has as its id under a key. -/
def Instance.id? (i : Instance) (key : String) : Option Int :=
  (i.value.entry? key).bind Value.int64?

namespace Schema

variable (S : Schema)

/-- The instances of a component kind, in the order of the walk. -/
def instances (d : Script) (kind : String) : Except SchemaFault (List Instance) := do
  _ ← S.component kind
  let found ← (S.findings (.component kind) d).result
  return (found.filter (!·.visit.onKey)).filterMap fun f =>
    (d.resourceAt? f.place).map fun resource => ⟨f.place, resource, f.visit.path, f.visit.value⟩

/-- **The first instance of a component kind with this id.** -/
def locate (d : Script) (kind : String) (id : Int) : Except SchemaFault (Option Instance) :=
  (S.instances d kind).map fun is => is.find? fun i => i.id? (S.idKey kind) == some id

end Schema

end ScriptSchema
