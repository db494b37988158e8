import ScriptSchema.Visit.Walk

/-!
# References

Which resources refer to which: by the name of a resource, or by the id of an instance of a
component.

* `Reference`, `Schema.references`: the references by name;
* `Visit.refersTo`: references by id;
* `Schema.referrers`, `Schema.instanceReferrers`: the resources that refer to something.
-/

namespace ScriptSchema

/-- A reference to a resource by its name. -/
structure Reference where
  /-- The resource that refers. -/
  origin : Place
  /-- The name of that resource, if it has one. -/
  owner : Option String
  /-- Where in that resource the reference lies. -/
  path : String
  /-- The collection of the resource that is named. -/
  collection : String
  name : String
deriving DecidableEq

namespace Visit

/-- The collection and name that a visited reference names. Special values, blanks and what is no
string name nothing. -/
def named? (v : Visit) : Option (String × String) :=
  match v.spec, v.value with
  | .terminal (.reference collection special _) _, .string name =>
    if name = "" ∨ special.any (·.value == name) then none else some (collection, name)
  | _, _ => none

/-- The visit is a reference to the instance of this kind with this id. -/
def refersTo (v : Visit) (kind : String) (id : Int) : Bool :=
  match v.spec with
  | .terminal (.instanceId k) _ => k == kind && v.value.int64? == some id
  | _ => false

end Visit

/-- The reference at a part of a script, if it names a resource. -/
def Finding.reference? (f : Finding) : Option Reference :=
  f.visit.named?.map fun (collection, name) =>
    ⟨f.place, f.owner, f.visit.path, collection, name⟩

/-- The resources at some places with their collections, each once, in the order of their first
mention. -/
def Script.resourcesAt (d : Script) (places : List Place) : List (String × Value) :=
  places.eraseDups.filterMap fun place => (d.resourceAt? place).map (place.collection, ·)

namespace Schema

variable (S : Schema)

/-- The references by name, in the order of the walk. -/
def references (d : Script) : Except SchemaFault (List Reference) :=
  (S.findings .reference d).result.map (·.filterMap Finding.reference?)

/-- **The resources that refer to a resource by its name.** -/
def referrers (d : Script) (collection name : String) :
    Except SchemaFault (List (String × Value)) :=
  (S.references d).map fun rs =>
    d.resourcesAt
      ((rs.filter fun r => r.collection == collection && r.name == name).map Reference.origin)

/-- **The resources that refer to an instance of a component by its id.** -/
def instanceReferrers (d : Script) (kind : String) (id : Int) :
    Except SchemaFault (List (String × Value)) :=
  (S.findings .instanceId d).result.map fun found =>
    d.resourcesAt ((found.filter (·.visit.refersTo kind id)).map Finding.place)

end Schema

end ScriptSchema
