import ScriptSchema.Report.Basic
import ScriptSchema.Problem.Value

/-!
# Validating scripts

A script is held to its schema and to a version. A broken `meta` block is reported alone; otherwise
every collection is looked at in order, and the ids that have to be unique at the end.

* `Requirements`: what is asked of a script beside its schema;
* `metaIssues`, `Schema.resourceIssues`, `Schema.collectionIssues`, `Schema.duplicateIdIssues`;
* **`Schema.validate`**: the whole script.
-/

namespace ScriptSchema

/-- What is asked of a script beside its schema. -/
structure Requirements where
  /-- The version that the script must have. -/
  version : UInt64
  /-- Collections of no registered type must be empty. -/
  refuseUnknown : Bool

/-- Why a script is not accepted. -/
inductive Refusal where
  /-- The schema is at fault. -/
  | schema (e : SchemaFault)
  | invalid (report : Report)
deriving DecidableEq

/-! ## The meta block -/

/-- An issue of the `meta` block. -/
def metaIssue (message : String) : Issue := ⟨Script.metaKey, Script.metaKey, message⟩

/-- What is wrong with a version. -/
def versionMessage? (expected : UInt64) : Option Value → Option String
  | none => some "Meta requires property \"version\"."
  | some v =>
    match v.uint64? with
    | none => some "Meta version should be an integer."
    | some n => if n = expected then none else some s!"Meta version {n} should be {expected}."

/-- What is wrong with the `meta` block: it is an object that holds the version and nothing else. -/
def metaIssues (expected : UInt64) (block : Option Value) : List Issue :=
  match block.bind Value.object? with
  | none => [metaIssue "Meta should be an object."]
  | some fields =>
    (versionMessage? expected (fields.lookup "version")).toList.map metaIssue ++
      (fields.keys.filter (· != "version")).map fun key =>
        metaIssue s!"Meta should not have property \"{key}\"."

/-! ## Collections -/

/-- The path of a resource in messages. -/
def resourcePath (collection : String) (resource : Value) : String :=
  collection ++ "[name=" ++ (nameOf? resource).getD "<unknown>" ++ "]"

/-- The issue of a collection of no registered type. -/
def unknownCollection (collection : String) : Issue :=
  ⟨collection, collection, s!"Invalid collection: {collection}"⟩

/-- The ids that do not count: absent ones, and `null`, `false`, zero and the empty string. -/
def isIdle : Value → Bool
  | .null => true
  | .bool b => !b
  | .number n => n.isZero
  | .string s => s = ""
  | _ => false

namespace Schema

variable (S : Schema) (d : Script)

/-- What is wrong with a resource, as a member of a collection. -/
def resourceIssues (collection : String) (resource : Value) : Except SchemaFault (List Issue) :=
  match S.resourceFor? collection with
  | none => .ok [unknownCollection collection]
  | some (_, c) => do
    let found ← S.classProblems d "" c resource
    return found.map fun p => ⟨resourcePath collection resource, collection, p.message⟩

/-- The issue of a resource whose name is among the names before it. -/
def repeatedName (collection : String) (before : List String) (resource : Value) : List Issue :=
  match nameOf? resource with
  | some name =>
    if before.contains name then [⟨collection, collection, s!"Duplicate names: {name}"⟩] else []
  | none => []

/-- What is wrong with the resources of a collection, given the names before them. -/
def memberIssues (collection : String) (before : List String) :
    List Value → Except SchemaFault (List Issue)
  | [] => .ok []
  | resource :: rest => do
    let own ← S.resourceIssues d collection resource
    let others ← memberIssues collection ((nameOf? resource).toList ++ before) rest
    return repeatedName collection before resource ++ own ++ others

/-- What is wrong with a collection. -/
def collectionIssues (refuseUnknown : Bool) (collection : String) :
    Except SchemaFault (List Issue) :=
  match d.array? collection with
  | none =>
    .ok [⟨collection, collection, s!"Collection must be an array: {collection}."⟩]
  | some resources =>
    if (S.resourceFor? collection).isNone then
      .ok (if refuseUnknown && !resources.isEmpty then [unknownCollection collection] else [])
    else S.memberIssues d collection [] resources

/-! ## Unique ids -/

/-- The id that counts of an instance. -/
def countedId? (field : String) (i : Instance) : Option Value :=
  (i.value.entry? field).filter (!isIdle ·)

/-- The issues of instances whose id has the text of an id before it. -/
def repeatedIds (kind field : String) (before : List String) : List Instance → List Issue
  | [] => []
  | i :: rest =>
    match countedId? field i with
    | none => repeatedIds kind field before rest
    | some id =>
      (if before.contains id.text then
        [⟨resourcePath i.place.collection i.resource, i.place.collection,
          s!"Duplicate id in {kind}: {id.shown}"⟩]
      else []) ++ repeatedIds kind field (id.text :: before) rest

/-- What is wrong with the ids of a component's instances. -/
def duplicateIdIssues (kind field : String) : Except SchemaFault (List Issue) :=
  (S.instances d kind).map (repeatedIds kind field [])

/-! ## The whole script -/

/-- Everything that is wrong outside the `meta` block. -/
def contentIssues (refuseUnknown : Bool) : Except SchemaFault (List Issue) := do
  let ofCollections ← d.names.mapM (S.collectionIssues d refuseUnknown)
  let ofIds ← S.idFields.mapM fun (kind, field) => S.duplicateIdIssues d kind field
  return ofCollections.flatten ++ ofIds.flatten

/-- **Whether a script conforms to its schema and version**, or why not. -/
def validate (r : Requirements) : Except Refusal Unit :=
  let ofMeta := metaIssues r.version (d.get? Script.metaKey)
  if !ofMeta.isEmpty then .error (.invalid ⟨"Invalid meta resource.", ofMeta⟩)
  else
    match S.contentIssues d r.refuseUnknown with
    | .error e => .error (.schema e)
    | .ok issues => if issues.isEmpty then .ok () else .error (.invalid (.ofIssues issues))

end Schema

end ScriptSchema
