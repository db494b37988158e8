import ScriptSchema.Json.Record
import ScriptSchema.Visit.Reference
import ScriptSchema.Workbench

/-!
# Data for interchange

The values that are kept and sent outside a program, as records: issues, references, samples,
special values, formats of scalars, scripts and settings.

* for each type `ofValue?` and `toValue`.
-/

namespace ScriptSchema

open Record

namespace Issue

/-- Reads an issue. -/
def ofValue? (v : Value) : Option Issue :=
  match parts? ["path", "collection", "message"] 0 v with
  | some [path, collection, message] => do
    some ⟨← required? Value.string? path, ← required? Value.string? collection,
      ← required? Value.string? message⟩
  | _ => none

/-- Writes an issue. -/
def toValue (i : Issue) : Value :=
  ofParts [("path", some (.string i.path)), ("collection", some (.string i.collection)),
    ("message", some (.string i.message))]

end Issue

namespace Reference

/-- Reads a reference. -/
def ofValue? (v : Value) : Option Reference :=
  match parts? ["from_collection", "from_index", "from_resource", "path", "to_collection",
      "to_name"] 0 v with
  | some [origin, index, owner, path, collection, name] => do
    some ⟨⟨← required? Value.string? origin, (← required? Value.uint64? index).toNat⟩,
      ← optional? Value.string? owner, ← required? Value.string? path,
      ← required? Value.string? collection, ← required? Value.string? name⟩
  | _ => none

/-- Writes a reference. -/
def toValue (r : Reference) : Value :=
  ofParts [("from_collection", some (.string r.origin.collection)),
    ("from_index", some (.number (.int r.origin.index))),
    ("from_resource", orNull (r.owner.map .string)), ("path", some (.string r.path)),
    ("to_collection", some (.string r.collection)), ("to_name", some (.string r.name))]

end Reference

namespace Sample

/-- Reads a sample. -/
def ofValue? (v : Value) : Option Sample :=
  match parts? ["before", "after", "assets"] 1 v with
  | some [before, after, assets] => do
    some ⟨← before, ← after, ← optional? some assets⟩
  | _ => none

/-- Writes a sample. -/
def toValue (s : Sample) : Value :=
  ofParts [("before", some s.before), ("after", some s.after), ("assets", s.assets)]

end Sample

namespace Special

/-- Reads a special value. -/
def ofValue? (v : Value) : Option Special :=
  match parts? ["value", "label"] 1 v with
  | some [value, label] => do
    some ⟨← required? Value.string? value, ← optional? Value.string? label⟩
  | _ => none

/-- Writes a special value. -/
def toValue (s : Special) : Value :=
  ofParts [("value", some (.string s.value)), ("label", s.label.map .string)]

end Special

namespace Scalar

/-- Reads a format: its key, or an object that has `null` under the key and nothing else. -/
def ofValue? : Value → Option Scalar
  | .string key => ofKey? key
  | .object [(key, .null)] => ofKey? key
  | _ => none

/-- Writes a format. -/
def toValue (s : Scalar) : Value := .string s.key

end Scalar

namespace Settings

/-- Reads settings; what is not said is as in `Settings.default`. -/
def ofValue? (v : Value) : Option Settings :=
  match parts? ["current_version", "reject_unknown_collections"] 2 v with
  | some [version, reject] => do
    some ⟨← optional? Value.uint64? version,
      ← defaulted? Value.bool? Settings.default.refuseUnknown reject⟩
  | _ => none

/-- Writes settings. -/
def toValue (s : Settings) : Value :=
  ofParts [("current_version", orNull (s.version.map .ofUInt64)),
    ("reject_unknown_collections", some (.bool s.refuseUnknown))]

end Settings

end ScriptSchema
