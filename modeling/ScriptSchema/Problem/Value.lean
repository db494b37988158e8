import ScriptSchema.Problem.Scalar
import ScriptSchema.Visit.Instance

/-!
# Validating values

A value is compared with a spec, part by part, and every problem is collected in order. An error
ends the comparison: the schema is at fault then, and not the value. As on a walk, the kinds of the
components that are describing the present value are known, so that the comparison always ends.

* `Schema.terminalProblems`: a terminal value, references included;
* `Schema.problemsWhile`: a value, given the kinds of the components that describe it;
* **`Schema.problems`**, `Schema.fieldProblems`: a value by a spec and by fields;
* `Schema.entryProblems`: a field that may be absent;
* `Schema.classProblems`: a value by a class with its hook;
* `problemsWhile_component`, `declaredProblems_cons`, …: single steps of the comparison.
-/

namespace ScriptSchema

namespace Schema

variable (S : Schema) (d : Script)

/-! ## Terminal values -/

/-- Enums hold one of their options. -/
def enumProblems (name : String) (options : List String) (v : Value) :
    Except SchemaFault (List Problem) :=
  if options.isEmpty then .error (.emptyEnum name)
  else if v.string?.any options.contains then .ok []
  else .ok [.unfit "Enum" name .nothing (.oneOf options)]

/-- References hold a special value, `null` if they may, or the name of a resource of their
collection. -/
def referenceProblems (name collection : String) (special : List Special) (nullable : Bool)
    (v : Value) : List Problem :=
  let isSpecial :=
    match v with
    | .string s => special.any (·.value == s)
    | .null => nullable
    | _ => false
  if isSpecial then []
  else
    match Scalar.nameProblem? "Reference" name v with
    | some problem => [problem]
    | none =>
      let named := v.string?.getD ""
      if d.defines collection named then []
      else [.unfit "Reference" name (.quoted named) (.inCollection collection)]

/-- References to instances hold the id of one. -/
def instanceProblems (name kind : String) (v : Value) : Except SchemaFault (List Problem) :=
  match v.int64? with
  | none => .ok [.unfit "Component reference" name (.quoted v.shown) .anInteger]
  | some id => do
    match ← S.locate d kind id with
    | some _ => return []
    | none =>
      return [.unfit "Component reference" name (.plain (toString id)) (.memberOf kind)]

/-- The problems of a terminal value. -/
def terminalProblems (name : String) (t : Terminal) (required : Bool) (v : Value) :
    Except SchemaFault (List Problem) :=
  match t with
  | .scalar format => .ok (format.problem? required name v).toList
  | .enum options => enumProblems name options v
  | .reference collection special nullable =>
    .ok (referenceProblems d name collection special nullable v)
  | .instanceId kind => S.instanceProblems d name kind v

/-! ## Values with parts -/

/-- The name of a value that is described by a lone `self`: that of the field in front of its
fields, if there is one. -/
def loneName (lead : String) : String :=
  match lead.toList.reverse with
  | '.' :: name => if name.isEmpty then "self" else .ofList name.reverse
  | _ => "self"

/-- The entries of an object that are not declared. -/
def unexpectedProblems (lead : String) (fields : Fields) (es : Entries Value) : List Problem :=
  (es.keys.filter fun key => !fields.has key).map fun key =>
    .unexpected (lead ++ key) fields.keys

/-- The messages of a hook as problems. -/
def hookProblems (hook : Option Hook) (v : Value) : List Problem :=
  match hook with
  | none => []
  | some hook => (hook d v).map .other

mutual

/-- The problems of a value with a name compared with a spec, while components of the present kinds
describe the value. -/
def problemsWhile (present : List String) (name : String) (spec : Spec) (v : Value) :
    Except SchemaFault (List Problem) :=
  match spec with
  | .terminal t info => S.terminalProblems d name t info.required v
  | .list items _ =>
    match v with
    | .array vs => itemProblems name items 0 vs
    | _ => .ok [.unfit "List" name .nothing .anArray]
  | .dictionary keys values _ =>
    match v with
    | .object es => pairProblems name keys values es
    | _ => .ok [.unfit "Dictionary" name .nothing .anObject]
  | .object fields _ => fieldProblemsWhile present (name ++ ".") fields v
  | .component kind _ =>
    match hc : S.components.find? kind with
    | none => .error (.unknownComponent kind)
    | some c =>
      let key := c.tagging.key
      match c.choose v with
      | .missing => .ok [.absent (Path.entry name key)]
      | .notString => .ok [.variantNotString name key]
      | .variant variant =>
        match c.variant? variant with
        | none => .ok [.unknownVariant name key variant c.variants.keys]
        | some chosen =>
          if hk : kind ∈ present then .error (.circular kind)
          else do
            have := S.idle_cons_lt hc hk
            let found ← fieldProblemsWhile (kind :: present) (name ++ ".") chosen.fields v
            return found ++ hookProblems d chosen.hook v
termination_by (sizeOf v, S.idle present, sizeOf spec)

/-- The problems of items, the first of which has the given index. -/
def itemProblems (name : String) (spec : Spec) (index : Nat) (vs : List Value) :
    Except SchemaFault (List Problem) :=
  match vs with
  | [] => .ok []
  | v :: vs => do
    let here ← problemsWhile [] (Path.item name index) spec v
    let rest ← itemProblems name spec (index + 1) vs
    return here ++ rest
termination_by (sizeOf vs, 0, 0)

/-- The problems of the entries of a dictionary: of each the key and then the value. -/
def pairProblems (name : String) (keys values : Spec) (es : List (String × Value)) :
    Except SchemaFault (List Problem) :=
  match es with
  | [] => .ok []
  | (k, v) :: es => do
    let ofKey ← problemsWhile [] (Path.entry name k) keys (.string k)
    let ofValue ← problemsWhile [] (Path.entry name k) values v
    let rest ← pairProblems name keys values es
    return ofKey ++ ofValue ++ rest
termination_by (sizeOf es, 0, 0)

/-- The problems of a value compared with fields, whose names get `lead` in front: those of the
declared fields in their order, then the entries that are not declared. -/
def fieldProblemsWhile (present : List String) (lead : String) (fields : Fields) (v : Value) :
    Except SchemaFault (List Problem) :=
  match hl : fields.lone? with
  | some spec =>
    have := sizeOf_lone hl
    problemsWhile present (loneName lead) spec v
  | none =>
    match v with
    | .object es => do
      let declared ← declaredProblems lead fields es
      return declared ++ unexpectedProblems lead fields es
    | _ => .ok [.noFields]
termination_by (sizeOf v, S.idle present, sizeOf fields)

/-- The problems of the declared fields. -/
def declaredProblems (lead : String) (fields : List (String × Spec)) (es : Entries Value) :
    Except SchemaFault (List Problem) :=
  match fields with
  | [] => .ok []
  | (name, spec) :: fields => do
    let here ←
      match hv : es.lookup name with
      | none => .ok (if spec.required then [.absent (lead ++ name)] else [])
      | some v =>
        have := sizeOf_lookup hv
        problemsWhile [] (lead ++ name) spec v
    let rest ← declaredProblems lead fields es
    return here ++ rest
termination_by (sizeOf es, 0, sizeOf fields)

end

/-! ## Where comparisons start -/

/-- **The problems of a value compared with a spec**, under a name. -/
def problems (name : String) (spec : Spec) (v : Value) : Except SchemaFault (List Problem) :=
  S.problemsWhile d [] name spec v

/-- **The problems of a value compared with fields**, whose names get `lead` in front. -/
def fieldProblems (lead : String) (fields : Fields) (v : Value) :
    Except SchemaFault (List Problem) :=
  S.fieldProblemsWhile d [] lead fields v

/-- The problems of a field that may be absent. -/
def entryProblems (name : String) (spec : Spec) : Option Value → Except SchemaFault (List Problem)
  | none => .ok (if spec.required then [.absent name] else [])
  | some v => S.problems d name spec v

/-- **The problems of a value compared with a class**: those of its fields, then those that the hook
finds. -/
def classProblems (lead : String) (c : Class) (v : Value) : Except SchemaFault (List Problem) := do
  let found ← S.fieldProblems d lead c.fields v
  return found ++ hookProblems d c.hook v

/-! ## Single steps -/

variable (present : List String) (name : String)

theorem problemsWhile_terminal (t : Terminal) (info : Info) (v : Value) :
    S.problemsWhile d present name (.terminal t info) v =
      S.terminalProblems d name t info.required v := by
  rw [problemsWhile]

theorem problemsWhile_list (items : Spec) (info : Info) (vs : List Value) :
    S.problemsWhile d present name (.list items info) (.array vs) =
      S.itemProblems d name items 0 vs := by
  rw [problemsWhile]

theorem problemsWhile_dictionary (keys values : Spec) (info : Info) (es : List (String × Value)) :
    S.problemsWhile d present name (.dictionary keys values info) (.object es) =
      S.pairProblems d name keys values es := by
  rw [problemsWhile]

theorem problemsWhile_object (fields : Fields) (info : Info) (v : Value) :
    S.problemsWhile d present name (.object fields info) v =
      S.fieldProblemsWhile d present (name ++ ".") fields v := by
  rw [problemsWhile]

/-- A value of a known variant is compared with the class of the variant. -/
theorem problemsWhile_component {kind variant : String} {c : Component} {chosen : Class}
    (info : Info) {v : Value} (hc : S.components.find? kind = some c)
    (hv : c.choose v = .variant variant) (hx : c.variant? variant = some chosen)
    (hk : kind ∉ present) :
    S.problemsWhile d present name (.component kind info) v = do
      let found ← S.fieldProblemsWhile d (kind :: present) (name ++ ".") chosen.fields v
      return found ++ hookProblems d chosen.hook v := by
  rw [problemsWhile]
  split
  · rename_i hc'
    exact absurd (hc.symm.trans hc') (by simp)
  · rename_i c' hc'
    obtain rfl : c = c' := Option.some.inj (hc.symm.trans hc')
    simp only [hv, hx, hk, dite_false]

theorem itemProblems_cons (spec : Spec) (index : Nat) (v : Value) (vs : List Value) :
    S.itemProblems d name spec index (v :: vs) = do
      let here ← S.problems d (Path.item name index) spec v
      let rest ← S.itemProblems d name spec (index + 1) vs
      return here ++ rest := by
  rw [itemProblems]
  rfl

theorem pairProblems_cons (keys values : Spec) (k : String) (v : Value)
    (es : List (String × Value)) :
    S.pairProblems d name keys values ((k, v) :: es) = do
      let ofKey ← S.problems d (Path.entry name k) keys (.string k)
      let ofValue ← S.problems d (Path.entry name k) values v
      let rest ← S.pairProblems d name keys values es
      return ofKey ++ ofValue ++ rest := by
  rw [pairProblems]
  rfl

theorem fieldProblemsWhile_lone {fields : Fields} {spec : Spec} (h : fields.lone? = some spec)
    (lead : String) (v : Value) :
    S.fieldProblemsWhile d present lead fields v =
      S.problemsWhile d present (loneName lead) spec v := by
  rw [fieldProblemsWhile.eq_def]
  split
  · rename_i spec' h'
    rw [Option.some.inj (h.symm.trans h')]
  · rename_i h'
    exact absurd (h.symm.trans h') (by simp)

theorem fieldProblemsWhile_object {fields : Fields} (h : fields.lone? = none) (lead : String)
    (es : List (String × Value)) :
    S.fieldProblemsWhile d present lead fields (.object es) = do
      let declared ← S.declaredProblems d lead fields es
      return declared ++ unexpectedProblems lead fields es := by
  rw [fieldProblemsWhile]
  split
  · rename_i h'
    exact absurd (h.symm.trans h') (by simp)
  · rfl

theorem declaredProblems_cons (lead : String) (spec : Spec) (fields : List (String × Spec))
    (es : List (String × Value)) :
    S.declaredProblems d lead ((name, spec) :: fields) es = do
      let here ← S.entryProblems d (lead ++ name) spec (es.lookup name)
      let rest ← S.declaredProblems d lead fields es
      return here ++ rest := by
  rw [declaredProblems]
  split
  · rename_i h
    rw [h]
    rfl
  · rename_i v h
    change (S.problems d (lead ++ name) spec v >>= _) = _
    rw [h]
    rfl

end Schema

end ScriptSchema
