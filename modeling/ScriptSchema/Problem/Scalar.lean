import ScriptSchema.Json.Text
import ScriptSchema.Path
import ScriptSchema.Schema.Scalar
import ScriptSchema.Text.Clock
import ScriptSchema.Text.Slice
import ScriptSchema.Problem.Basic

/-!
# Validating scalars

The rule of each format finds at most one problem, the first that applies.

* `Value.numeric?`: a number, or a string that reads as one;
* `nameProblem?`: the grammar of resource names, which references share;
* the other rules, from `textProblem?` to `locationProblem?`;
* **`Scalar.problem?`**: the rule of a format.
-/

namespace ScriptSchema

/-- A number, or the number that a string without the blanks around it reads as. -/
def Value.numeric? : Value → Option Number
  | .number n => some n
  | .string s => (readFloat? (trimBlanks s.toList)).map .float
  | _ => none

/-- The text starts with an ASCII letter. -/
def startsWithLetter (s : String) : Bool := s.toList.head?.any CharSet.letter.has

/-! ## Grammars -/

namespace Grammar

/-- Letters, digits, underscores and dashes. -/
def nameChars : Pattern := .some (CharSet.wordChar.union (.ofChars ['-']))

/-- Letters, digits and underscores. -/
def attributeChars : Pattern := .many .wordChar

/-- Letters, digits, underscores, dashes and points. -/
def lookupChars : Pattern := .some (CharSet.wordChar.union (.ofChars ['.', '-']))

/-- A number sign and six hexadecimal digits. -/
def hexColor : Pattern :=
  let digit := Pattern.one (.ofRanges [('A', 'F'), ('a', 'f'), ('0', '9')])
  .char '#' ++ digit ++ digit ++ digit ++ digit ++ digit ++ digit

/-- A name between double braces, which stands for an upload. -/
def mediaTemplate : Pattern :=
  .char '\x7b' ++ .char '\x7b' ++ lookupChars ++ .char '\x7d' ++ .char '\x7d'

/-- A display name, perhaps in quotes, and a blank behind it. -/
def displayName : Pattern :=
  .atMostOne (.ofChars ['"']) ++ .many (.allBut ['"']) ++ .atMostOne (.ofChars ['"']) ++ .one .blank

/-- An address: something, `@`, and a domain with a point. -/
def address : Pattern :=
  .some (.allBut ['\n']) ++ .char '@' ++ .some (.allBut ['>']) ++ .char '.' ++ .some (.allBut ['>'])

/-- An address, perhaps in angle brackets, perhaps behind a display name. -/
def email : Pattern :=
  displayName.maybe ++ .atMostOne (.ofChars ['<']) ++ address ++ .atMostOne (.ofChars ['>'])

end Grammar

/-! ## Rules -/

namespace Scalar

variable (required : Bool) (label name : String)

/-- The text of a value of the wrong type or form, in quotes. -/
def inQuotes (v : Value) : Shown := .quoted v.shown

/-- Resource names start with a letter, and letters, digits, dashes and underscores follow. -/
def nameProblem? (v : Value) : Option Problem :=
  match v with
  | .string s =>
    if s = "" then some (.unfit label name .nothing .notBlank)
    else if !startsWithLetter s then some (.unfit label name (.quoted s) .letterFirst)
    else if Grammar.nameChars.accepts s.toList then none
    else some (.unfit label name (.quoted s) .nameCharacters)
  | v => some (.unfit label name (inQuotes v) .aString)

/-- A text; a required one is not blank. -/
def textProblem? (v : Value) : Option Problem :=
  match v with
  | .string s => if required && s = "" then some (.unfit label name .nothing .notBlank) else none
  | _ => some (.unfit label name .nothing .aString)

/-- A text that is blank or holds an address. -/
def emailProblem? (v : Value) : Option Problem :=
  match textProblem? required label name v with
  | some problem => some problem
  | none =>
    match v with
    | .string s =>
      if s = "" ∨ Grammar.email.occursIn s.toList then none
      else some (.unfit label name .nothing .anEmail)
    | _ => none

/-- A string, which is not blank if required, a number or a boolean. -/
def simpleProblem? (v : Value) : Option Problem :=
  match v with
  | .string s => if required && s = "" then some (.unfit label name .nothing .notBlank) else none
  | .number _ => none
  | .bool _ => none
  | _ => some (.unfit label name .nothing .simple)

/-- A hexadecimal color. -/
def colorProblem? (v : Value) : Option Problem :=
  match v with
  | .string s =>
    if s = "" then some (.unfit label name .nothing .notBlank)
    else if Grammar.hexColor.accepts s.toList then none
    else some (.unfit label name (.plain s) .hexColor)
  | _ => some (.unfit label name .nothing .aString)

/-- The text begins like an address on the web. -/
def isUrl (s : String) : Bool :=
  "https://".toList.isPrefixOf s.toList || "http://".toList.isPrefixOf s.toList

/-- A blank, an address on the web or a template; a required one is not blank. -/
def mediaProblem? (v : Value) : Option Problem :=
  match v with
  | .string s =>
    if s = "" then if required then some (.unfit label name .nothing .notBlank) else none
    else if isUrl s || Grammar.mediaTemplate.accepts s.toList then none
    else some (.unfit label name .nothing .url)
  | _ => some (.unfit label name .nothing .aString)

/-- Two numbers of degrees. -/
def coordsProblem? (v : Value) : Option Problem :=
  match v with
  | .array [a, b] =>
    match a.numeric?, b.numeric? with
    | some x, some y =>
      if !x.within 180 then some (.unfit label (Path.item name 0) .nothing .inDegrees)
      else if !y.within 180 then some (.unfit label (Path.item name 1) .nothing .inDegrees)
      else none
    | _, _ => some (.unfit label name .nothing .twoNumbers)
  | _ => some (.unfit label name .nothing .twoNumbers)

/-- A letter, and letters, digits and underscores behind it. -/
def attributeProblem? (v : Value) : Option Problem :=
  match v with
  | .string s =>
    if s = "" then some (.unfit label name .nothing .notBlank)
    else if !startsWithLetter s then some (.unfit label name (.quoted s) .letterFirst)
    else if Grammar.attributeChars.accepts s.toList then none
    else some (.unfit label name (.quoted s) .attributeCharacters)
  | _ => some (.unfit label name .nothing .aString)

/-- The characters that quote a text. -/
def quoteMarks : List Char := ['"', '\x27']

/-- The text behind the opening quote `q` ends with the same quote, which occurs nowhere else in it,
and is not blank. There would be no answer if a slice were missing. -/
def enclosed? (q : Char) (s : String) : Option Bool := do
  let inner ← fromByte? s 1
  if 1 < inner.utf8ByteSize ∧ closesWith inner q = true then
    let body ← toByte? inner (inner.utf8ByteSize - 1)
    return !body.toList.contains q
  else return false

/-- A text in single or double quotes, or the path of a variable. -/
def lookupProblem? (v : Value) : Option Problem :=
  match v with
  | .string s =>
    if s = "" then some (.unfit label name .nothing .notBlank)
    else
      match quoteMarks.find? (opensWith s ·) with
      | some q =>
        -- both slices exist, since the quotes are ASCII
        if (enclosed? q s).getD false then none
        else some (.unfit label name (.quoted s) .outerQuotes)
      | none =>
        if Grammar.lookupChars.accepts s.toList then none
        else some (.unfit label name (.quoted s) .lookupCharacters)
  | v => some (.unfit label name (inQuotes v) .aString)

/-- The faults of a location that is an object. -/
def locationFaults (fields : Entries Value) : List String :=
  (["title", "address"].filter fun key => (fields.lookup key).any (!·.isString)).map
      (· ++ " should be a string") ++
    (match fields.lookup "coords" with
      | none => ["coords is required"]
      | some (.array [.number _, .number _]) => []
      | some _ => ["coords should be an array of two numbers"]) ++
    (fields.keys.filter fun key => !(["title", "address", "coords"].contains key)).map
      fun key => s!"additional property \"{key}\" is not allowed"

/-- An object with coordinates and perhaps a title and an address. -/
def locationProblem? (v : Value) : Option Problem :=
  let faults :=
    match v with
    | .object fields => locationFaults fields
    | _ => ["location should be an object"]
  if faults.isEmpty then none else some (.unfit label name .nothing (.validLocation faults))

/-- **The rule of a format.** -/
def problem? (format : Scalar) (v : Value) : Option Problem :=
  let label := format.label
  match format with
  | string => textProblem? required label name v
  | markdown => textProblem? required label name v
  | email => emailProblem? required label name v
  | simpleValue => simpleProblem? required label name v
  | integer =>
    if v.numeric?.any Number.isWhole then none else some (.unfit label name .nothing .anInteger)
  | number => if v.numeric?.isSome then none else some (.unfit label name .nothing .aNumber)
  | boolean =>
    match v with
    | .bool _ => none
    | v => some (.unfit label name (inQuotes v) .trueOrFalse)
  | color => colorProblem? label name v
  | duration =>
    if v.string?.any fun s => 0 < durationSeconds s then none
    else some (.unfit label name (inQuotes v) .amountAndUnit)
  | timeOffset =>
    if v.string?.any isOffset then none
    else some (.unfit label name (inQuotes v) .signedAmountAndUnit)
  | timeShorthand =>
    if v.string?.any isClockTime then none else some (.unfit label name (inQuotes v) .clockTime)
  | .name => nameProblem? label name v
  | media => mediaProblem? required label name v
  | coords => coordsProblem? label name v
  | simpleAttribute => attributeProblem? label name v
  | lookupable => lookupProblem? label name v
  | location => locationProblem? label name v

end Scalar

end ScriptSchema
