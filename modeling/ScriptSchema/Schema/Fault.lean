/-!
# Faults of a schema

What can be wrong with a schema itself, as opposed to the values that it describes.

* `ComponentFault`: why parts do not make a component;
* `SchemaFault`, `SchemaFault.message`.
-/

namespace ScriptSchema

/-- Why parts do not make a component. -/
inductive ComponentFault where
  /-- The variant is kept under the empty key. -/
  | emptyKey
  | noVariants
  | repeatedVariant (name : String)
deriving DecidableEq

/-- How a fault of a component reads. -/
def ComponentFault.message : ComponentFault → String
  | emptyKey => "discriminator key is empty"
  | noVariants => "no variants declared"
  | repeatedVariant name => s!"variant \"{name}\" declared twice"

/-- What is wrong with a schema. -/
inductive SchemaFault where
  /-- No component of this kind is registered. -/
  | unknownComponent (kind : String)
  /-- An enum at this path has no options. -/
  | emptyEnum (path : String)
  | invalidComponent (kind : String) (fault : ComponentFault)
  /-- No resource of this type is registered. -/
  | unknownResource (type : String)
  /-- Through `self` fields alone, a component of this kind is asked to describe the value that it
  describes already. -/
  | circular (kind : String)
deriving DecidableEq

/-- How a fault reads. -/
def SchemaFault.message : SchemaFault → String
  | unknownComponent kind => s!"Invalid component type \"{kind}\"."
  | emptyEnum path => s!"Invalid enum spec at \"{path}\": missing options."
  | invalidComponent kind fault => s!"Invalid component \"{kind}\": {fault.message}"
  | unknownResource type => s!"Invalid resource type \"{type}\"."
  | circular kind => s!"Circular component type \"{kind}\"."

end ScriptSchema
