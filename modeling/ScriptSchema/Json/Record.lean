import ScriptSchema.Json.Value

/-!
# Records

A record is written as an object with its parts under their names, or as an array of the parts in
order. An object may have more entries; an array may leave out parts only at its end, and only those
that have a default.

* `Record.parts?`: the parts of a record, absent ones included;
* `Record.required?`, `Record.optional?`, `Record.defaulted?`: what a part is read as;
* `Record.ofParts`: a record as an object, without its absent parts.
-/

namespace ScriptSchema

namespace Record

/-- The parts of a record with these names, of which the last `defaults` may be left out of an
array. -/
def parts? (names : List String) (defaults : Nat) : Value → Option (List (Option Value))
  | .object es => some (names.map (es.lookup ·))
  | .array vs =>
    if vs.length ≤ names.length ∧ names.length ≤ vs.length + defaults then
      some (vs.map some ++ List.replicate (names.length - vs.length) none)
    else none
  | _ => none

/-- A part that must be there, read by `read`. -/
def required? {α : Type} (read : Value → Option α) (part : Option Value) : Option α :=
  part.bind read

/-- A part that may be absent or `null`, and is read by `read` otherwise. -/
def optional? {α : Type} (read : Value → Option α) : Option Value → Option (Option α)
  | none => some none
  | some .null => some none
  | some v => (read v).map some

/-- A part that has a default. -/
def defaulted? {α : Type} (read : Value → Option α) (default : α) : Option Value → Option α
  | none => some default
  | some v => read v

/-- The object with those parts that are there. -/
def ofParts (parts : List (String × Option Value)) : Value :=
  .object (parts.filterMap fun (name, part) => part.map fun v => (name, v))

/-- A part that is `null` if there is nothing to say. -/
def orNull (v : Option Value) : Option Value := some (v.getD .null)

end Record

end ScriptSchema
