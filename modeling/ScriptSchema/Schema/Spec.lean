import ScriptSchema.Entries
import ScriptSchema.Schema.Scalar

/-!
# Specs

A spec says what a value may look like. Terminal specs end a walk through a value; the others say
what the parts of the value look like, and a component spec leaves that to the schema.

* `Terminal`, `Info`, `Spec`, `Fields`;
* `Fields.lone?`: the spec of a value that is described by a single field named `self`;
* `Fields.lone?_eq_some_iff`: when there is one;
* `Spec.same`: equality.
-/

namespace ScriptSchema

/-- A value that a reference may hold without naming a resource. -/
structure Special where
  value : String
  label : Option String
deriving DecidableEq

/-- What a value without described parts may be. -/
inductive Terminal where
  /-- A scalar of some format. -/
  | scalar (format : Scalar)
  /-- One of the options. -/
  | enum (options : List String)
  /-- The name of a resource of a collection. -/
  | reference (collection : String) (special : List Special) (nullable : Bool)
  /-- The id of an instance of a component kind. -/
  | instanceId (kind : String)
deriving DecidableEq

/-- What is said about a field beside its shape. -/
structure Info where
  required : Bool
  help : Option String
deriving DecidableEq

/-- What a value may be. -/
inductive Spec where
  | terminal (t : Terminal) (info : Info)
  | list (items : Spec) (info : Info)
  | dictionary (keys values : Spec) (info : Info)
  | object (fields : List (String × Spec)) (info : Info)
  /-- A component: a union that the schema describes under its kind. -/
  | component (kind : String) (info : Info)

/-- The fields of an object, in order. -/
abbrev Fields := Entries Spec

/-- The spec of the only field, if it is named `self`. It describes the value itself, which then
need not be an object. -/
def Fields.lone? : Fields → Option Spec
  | [(name, spec)] => if name = "self" then some spec else none
  | _ => none

theorem Fields.lone?_eq_some_iff {fields : Fields} {spec : Spec} :
    fields.lone? = some spec ↔ fields = [("self", spec)] := by
  constructor
  · intro h
    unfold lone? at h
    split at h
    · split at h
      · rename_i hname
        rw [hname, Option.some.inj h]
      · contradiction
    · contradiction
  · rintro rfl
    rfl

/-- Nothing more to say. -/
def Info.plain : Info := ⟨false, none⟩

namespace Spec

/-- What is said beside the shape. -/
def info : Spec → Info
  | terminal _ info => info
  | list _ info => info
  | dictionary _ _ info => info
  | object _ info => info
  | component _ info => info

/-- The field must be there. -/
def required (spec : Spec) : Bool := spec.info.required

/-- Says something else beside the shape. -/
def withInfo (spec : Spec) (info : Info) : Spec :=
  match spec with
  | terminal t _ => terminal t info
  | list items _ => list items info
  | dictionary keys values _ => dictionary keys values info
  | object fields _ => object fields info
  | component kind _ => component kind info

/-- The same spec for a field that must be there. -/
def require (spec : Spec) : Spec := spec.withInfo { spec.info with required := true }

/-- The same spec with a help text. -/
def explained (spec : Spec) (help : String) : Spec :=
  spec.withInfo { spec.info with help := some help }

/-- The same spec, a reference with more special values. -/
def allowing (spec : Spec) (special : List Special) : Spec :=
  match spec with
  | terminal (.reference c old nullable) info =>
    terminal (.reference c (old ++ special) nullable) info
  | spec => spec

/-- The same spec, a reference that may be `null`. -/
def orNull (spec : Spec) : Spec :=
  match spec with
  | terminal (.reference c special _) info => terminal (.reference c special true) info
  | spec => spec

/-- One of the options. -/
def ofOptions (options : List String) : Spec := terminal (.enum options) .plain

/-- The terminal of a terminal spec. -/
def terminal? : Spec → Option Terminal
  | terminal t _ => some t
  | _ => none

/-! ## Equality -/

mutual

/-- The specs are equal, help texts and the order of fields included. -/
def same : Spec → Spec → Bool
  | terminal t i, terminal u j => t == u && i == j
  | list a i, list b j => a.same b && i == j
  | dictionary a b i, dictionary c d j => a.same c && b.same d && i == j
  | object a i, object b j => sameFields a b && i == j
  | component a i, component b j => a == b && i == j
  | _, _ => false

/-- The fields are equal one by one. -/
def sameFields : List (String × Spec) → List (String × Spec) → Bool
  | [], [] => true
  | (k, a) :: as, (l, b) :: bs => k == l && a.same b && sameFields as bs
  | _, _ => false

end

end Spec

end ScriptSchema
