/-!
# Paths

Where a part of a value lies: `panels[1].text` is the field `text` of the item `1` of the field
`panels`, and an entry of a dictionary stands in brackets like an item of a list.

* `Path.field`, `Path.item`, `Path.entry`.
-/

namespace ScriptSchema

namespace Path

/-- The path of a field; at the root it is the field's name. -/
def field (path name : String) : String := if path = "" then name else path ++ "." ++ name

/-- The path of an item of a list. -/
def item (path : String) (index : Nat) : String := path ++ "[" ++ toString index ++ "]"

/-- The path of an entry of a dictionary. -/
def entry (path key : String) : String := path ++ "[" ++ key ++ "]"

end Path

end ScriptSchema
