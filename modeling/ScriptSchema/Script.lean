import ScriptSchema.Json.Value

/-!
# Scripts

A script is an object of collections, each an array of resources, and a `meta` block that holds the
version of the schema that the script was written for. Nothing of this shape is guaranteed: any
entry may be any value until the script has been validated.

* `Script`, `Script.ofValue?`, `Script.value`;
* `Script.collection`, `Script.resource?`, `Script.push`: collections and their resources;
* `Script.version?`, `Script.withVersion`: the `meta` block;
* `nameOf?`: the name of a resource.
-/

namespace ScriptSchema

/-- The name of a resource, if it is a string. -/
def nameOf? (resource : Value) : Option String := (resource.entry? "name").bind Value.string?

/-- A script: its entries in order. -/
structure Script where
  entries : Entries Value

namespace Script

/-- The key of the metadata block. -/
def metaKey : String := "meta"

/-- The script without entries, which has no `meta` block either. -/
def empty : Script := ⟨[]⟩

/-- An object as a script. -/
def ofValue? (v : Value) : Option Script := v.object?.map .mk

/-- The script as an object. -/
def value (d : Script) : Value := .object d.entries

/-- Equality up to the order of entries, at every level. -/
def same (d e : Script) : Bool := d.value.same e.value

theorem ofValue?_value (d : Script) : ofValue? d.value = some d := rfl

/-! ## Entries -/

/-- Any entry, a collection or not. -/
def get? (d : Script) (key : String) : Option Value := d.entries.lookup key

/-- Writes an entry. -/
def put (d : Script) (key : String) (v : Value) : Script := ⟨d.entries.put key v⟩

/-- Removes an entry; the last one takes its place. -/
def delete (d : Script) (key : String) : Script := ⟨d.entries.swapDelete key⟩

theorem get?_put (d : Script) (key k : String) (v : Value) :
    (d.put key v).get? k = if k = key then some v else d.get? k :=
  Entries.lookup_put d.entries key k v

/-! ## Collections -/

/-- The names of all entries but `meta`. -/
def names (d : Script) : List String := d.entries.keys.filter (· != metaKey)

/-- The resources of an entry that is an array. -/
def array? (d : Script) (name : String) : Option (List Value) := (d.get? name).bind Value.array?

/-- The resources of a collection; none if it is absent or not an array. -/
def collection (d : Script) (name : String) : List Value := (d.array? name).getD []

/-- The first resource of a collection with this name. -/
def resource? (d : Script) (collection name : String) : Option Value :=
  (d.collection collection).find? fun r => nameOf? r == some name

/-- Some resource of the collection has this name. -/
def defines (d : Script) (collection name : String) : Bool := (d.resource? collection name).isSome

/-- Adds a resource at the end of a collection. An entry that is not an array gives way to one. -/
def push (d : Script) (collection : String) (resource : Value) : Script :=
  d.put collection (.array (d.collection collection ++ [resource]))

theorem collection_push (d : Script) (name c : String) (r : Value) :
    (d.push name r).collection c =
      if c = name then d.collection name ++ [r] else d.collection c := by
  have h : (d.push name r).get? c =
      if c = name then some (.array (d.collection name ++ [r])) else d.get? c :=
    get?_put d name c _
  rw [collection, array?, h]
  split <;> rfl

theorem defines_iff (d : Script) (collection name : String) :
    d.defines collection name = true ↔ ∃ r ∈ d.collection collection, nameOf? r = some name := by
  simp [defines, resource?, List.find?_isSome]

/-! ## The version -/

/-- The version in the `meta` block, if it is a whole number that fits into 64 bits without a
sign. -/
def version? (d : Script) : Option UInt64 :=
  ((d.get? metaKey).bind (Value.entry? · "version")).bind Value.uint64?

/-- Writes the version. A `meta` entry that is not an object gives way to one. -/
def withVersion (d : Script) (version : UInt64) : Script :=
  let block := ((d.get? metaKey).bind Value.object?).getD []
  d.put metaKey (.object (block.put "version" (.ofUInt64 version)))

theorem version?_withVersion (d : Script) (n : UInt64) : (d.withVersion n).version? = some n := by
  have h : (d.withVersion n).get? metaKey = some (.object
      ((((d.get? metaKey).bind Value.object?).getD [] : Entries Value).put "version"
        (.ofUInt64 n))) := by
    unfold withVersion
    rw [get?_put, if_pos rfl]
  unfold version?
  rw [h]
  simp only [Option.bind_some, Value.entry?, Value.object?, Entries.lookup_put, if_true]
  exact Value.uint64?_ofUInt64 n

end Script

end ScriptSchema
