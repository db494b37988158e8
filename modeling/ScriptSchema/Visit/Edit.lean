import ScriptSchema.Path
import ScriptSchema.Schema.Basic
import ScriptSchema.Visit.Basic

/-!
# Editing a value on a walk

The same walk as in `ScriptSchema.Visit.Walk`, but an editor is handed every visited part, leaves
another value in its place and carries a state along. What an editor leaves decides how the walk
goes on, so that it may go on for ever; the walk is therefore given a depth that it may reach. When
it stops early, the changes made until then remain.

* `Editor`, `PlacedEditor`, `Reply`: what is asked at a visit, and the answer;
* `Edit`: the outcome, with the value and the state that the walk leaves;
* `Schema.edit`, `Schema.editFields`: the walk by a spec and by fields;
* `Schema.editResource`, `Schema.editComponent`, `Schema.editScript`: where walks start.
-/

namespace ScriptSchema

/-- An editor's answer: the value to leave, its state, and an error to stop with. -/
structure Reply (σ ε : Type) where
  value : Value
  state : σ
  error : Option ε

/-- What an editor does with a visited part. -/
abbrev Editor (σ ε : Type) := Visit → σ → Reply σ ε

/-- An editor that is told which resource it is at, and the name of that resource. -/
abbrev PlacedEditor (σ ε : Type) := Place → Option String → Editor σ ε

/-- Why a walk stopped early. -/
inductive Stop (ε : Type) where
  | schema (e : SchemaFault)
  /-- The editor said so. -/
  | raised (e : ε)
  /-- The walk went deeper than it may. -/
  | tooDeep

/-- What a walk leaves of a value of type `α`. -/
structure Edit (σ ε α : Type) where
  value : α
  state : σ
  stop : Option (Stop ε)

namespace Edit

variable {σ ε α β : Type}

/-- Nothing changes. -/
def keep (a : α) (s : σ) : Edit σ ε α := ⟨a, s, none⟩

/-- The walk stops here. -/
def halt (a : α) (s : σ) (e : Stop ε) : Edit σ ε α := ⟨a, s, some e⟩

/-- The edit of a part as an edit of the whole. -/
def map (f : α → β) (x : Edit σ ε α) : Edit σ ε β := ⟨f x.value, x.state, x.stop⟩

/-- Goes on with what an edit left, unless it stopped. -/
def andThen (x : Edit σ ε α) (next : α → σ → Edit σ ε α) : Edit σ ε α :=
  match x.stop with
  | none => next x.value x.state
  | some _ => x

/-- Asks the editor about a part. -/
def ask (editor : Editor σ ε) (visit : Visit) (s : σ) : Edit σ ε Value :=
  let r := editor visit s
  ⟨r.value, r.state, r.error.map .raised⟩

/-- Edits the members of a list, the first of which has the given index, until one stops. -/
def members (f : Nat → α → σ → Edit σ ε α) (index : Nat) : List α → σ → Edit σ ε (List α)
  | [], s => keep [] s
  | a :: as, s =>
    let x := f index a s
    match x.stop with
    | some e => halt (x.value :: as) x.state e
    | none => (members f (index + 1) as x.state).map (x.value :: ·)

/-- Edits the entries that the fields declare, in the order of the fields. -/
def declared (f : String → Spec → Value → σ → Edit σ ε Value) :
    Fields → Entries Value → σ → Edit σ ε (Entries Value)
  | [], es, s => keep es s
  | (name, spec) :: fields, es, s =>
    match es.lookup name with
    | none => declared f fields es s
    | some v => ((f name spec v s).map (es.put name)).andThen (declared f fields)

/-- Edits the keys of a dictionary. A key for which a string is left is renamed to it; the entries
stand as before, and of entries that come to have the same key the last one takes the place of the
first. If the walk stops among the keys, none is renamed. -/
def keys (editor : Editor σ ε) (path : String) (spec : Spec) (es : Entries Value) (s : σ) :
    Edit σ ε (Entries Value) :=
  let rename := fun (_ : Nat) (key : String) (s : σ) =>
    (ask editor ⟨Path.entry path key, spec, true, .string key⟩ s).map fun v => v.string?.getD key
  let x := members rename 0 es.keys s
  match x.stop with
  | some e => halt es x.state e
  | none =>
    if x.value = es.keys then keep es x.state
    else keep (Entries.ofPairs (x.value.zip (es.map Prod.snd))) x.state

/-- Edits a value by fields, given how to edit one by a spec: by the spec of a lone `self`, or the
entries of an object that are declared. -/
def fields (edit : String → Spec → Value → σ → Edit σ ε Value) (path : String) (fields : Fields)
    (v : Value) (s : σ) : Edit σ ε Value :=
  match fields.lone? with
  | some spec => edit path spec v s
  | none =>
    match v with
    | .object es => (declared (fun name => edit (Path.field path name)) fields es s).map .object
    | v => keep v s

end Edit

namespace Schema

variable (S : Schema) {σ ε : Type}

/-- **The editing walk through a value by a spec**, at most `depth` levels deep. -/
def edit (focus : Focus) (editor : Editor σ ε) :
    (depth : Nat) → (path : String) → Spec → Value → σ → Edit σ ε Value
  | 0, _, _, v, s => .halt v s .tooDeep
  | depth + 1, path, spec, v, s =>
    match spec, v with
    | .terminal t _, v =>
      if focus.takes t then .ask editor ⟨path, spec, false, v⟩ s else .keep v s
    | .list items _, .array vs =>
      (Edit.members (fun i v s => edit focus editor depth (Path.item path i) items v s) 0 vs s).map
        .array
    | .dictionary keys values _, .object es =>
      let renamed :=
        if keys.terminal?.any focus.takes then Edit.keys editor path keys es s else .keep es s
      (renamed.andThen (Edit.members (fun _ e s =>
        (edit focus editor depth (Path.entry path e.1) values e.2 s).map (e.1, ·)) 0)).map .object
    | .object fields _, v => Edit.fields (edit focus editor depth) path fields v s
    | .component kind _, v =>
      let asked :=
        if focus.takesComponent kind then Edit.ask editor ⟨path, spec, false, v⟩ s else .keep v s
      asked.andThen fun v s =>
        match S.components.find? kind with
        | none => .halt v s (.schema (.unknownComponent kind))
        | some c =>
          if v.isObject then Edit.fields (edit focus editor depth) path (c.classAt v).fields v s
          else .keep v s
    | _, v => .keep v s

/-- **The editing walk through a value by fields**, at most `depth` levels deep. -/
def editFields (focus : Focus) (editor : Editor σ ε) (depth : Nat) (path : String)
    (fields : Fields) (v : Value) (s : σ) : Edit σ ε Value :=
  Edit.fields (S.edit focus editor depth) path fields v s

/-! ## Where walks start -/

/-- The editing walk through a resource of a type; an unknown type has nothing to visit. -/
def editResource (focus : Focus) (editor : Editor σ ε) (depth : Nat) (type : String) (v : Value)
    (s : σ) : Edit σ ε Value :=
  match S.resources.find? type with
  | none => .keep v s
  | some c => S.editFields focus editor depth "" c.fields v s

/-- The editing walk through the fields of a component's instance, without the instance itself. -/
def editComponent (focus : Focus) (editor : Editor σ ε) (depth : Nat) (kind : String) (v : Value)
    (s : σ) : Edit σ ε Value :=
  match S.components.find? kind with
  | none => .halt v s (.schema (.unknownComponent kind))
  | some c => S.editFields focus editor depth "" (c.classAt v).fields v s

/-- The editing walk through an entry of a script. -/
def editEntry (focus : Focus) (editor : PlacedEditor σ ε) (depth : Nat) (entry : String × Value)
    (s : σ) : Edit σ ε (String × Value) :=
  if entry.1 = Script.metaKey then .keep entry s
  else
    match S.resourceFor? entry.1, entry.2 with
    | some (_, c), .array vs =>
      (Edit.members (fun i v s =>
        S.editFields focus (editor ⟨entry.1, i⟩ (nameOf? v)) depth "" c.fields v s) 0 vs s).map
        fun vs => (entry.1, .array vs)
    | _, _ => .keep entry s

/-- **The editing walk through a script.** -/
def editScript (focus : Focus) (editor : PlacedEditor σ ε) (depth : Nat) (d : Script) (s : σ) :
    Edit σ ε Script :=
  (Edit.members (fun _ => S.editEntry focus editor depth) 0 d.entries s).map .mk

end Schema

end ScriptSchema
