import ScriptSchema.Directory
import ScriptSchema.Schema.Component
import ScriptSchema.Text.Plural

/-!
# Schemas

A schema has the classes of the resource types and the components, each under its name, and says
which components have ids that are unique in a script.

* `Schema`, `Schema.addResource`, `Schema.addComponent`, `Schema.addIdField`;
* `Schema.resourceFor?`: the class by which the resources of a collection are described;
* `Schema.component`, `Schema.variantClass`;
* `Schema.idKey`: where instances of a component keep their id.
-/

namespace ScriptSchema

/-- The classes and components that describe a script. -/
structure Schema where
  resources : Directory Class
  components : Directory Component
  /-- Kinds of components whose instances have an id of their own, and the field that holds it. -/
  idFields : List (String × String)

namespace Schema

/-- The schema that describes nothing. -/
def empty : Schema := ⟨∅, ∅, []⟩

/-- Registers a resource type. -/
def addResource (S : Schema) (type : String) (c : Class) : Schema :=
  { S with resources := S.resources.add type c }

/-- Registers a component under its kind. -/
def addComponent (S : Schema) (c : Component) : Schema :=
  { S with components := S.components.add c.kind c }

/-- Asks for the ids of a kind, kept in a field, to be unique. -/
def addIdField (S : Schema) (kind field : String) : Schema :=
  { S with idFields := S.idFields ++ [(kind, field)] }

variable (S : Schema)

/-- The type and class behind a collection: the type that the collection's name is the plural of
according to its ending, or else the first type that has this plural. -/
def resourceFor? (collection : String) : Option (String × Class) :=
  let type := singularOf collection
  match S.resources.find? type with
  | some c => some (type, c)
  | none => S.resources.entries.find? fun e => pluralOf e.1 == collection

/-- The component of a kind. -/
def component (kind : String) : Except SchemaFault Component :=
  match S.components.find? kind with
  | some c => .ok c
  | none => .error (.unknownComponent kind)

/-- The class of a component's variant; without a known variant, the class that can hold only the
tag. -/
def variantClass (kind : String) (variant : Option String) : Except SchemaFault Class :=
  (S.component kind).map (·.classNamed variant)

/-- The field that holds the id of a component's instances. -/
def idKey (kind : String) : String := (S.idFields.lookup kind).getD "id"

end Schema

end ScriptSchema
