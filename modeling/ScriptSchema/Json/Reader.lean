import ScriptSchema.Json.Value
import ScriptSchema.Number.Scaled
import ScriptSchema.Text.Pattern

/-!
# Reading JSON

A text is cut into tokens and the tokens are put together to a value. Entries keep their order. A
numeral without point and exponent that fits into 64 bits, signed or unsigned, is a whole number;
any other is a scaled double.

* `Token`, `Token.ofText?`;
* `Number.read?`;
* `Value.ofTokens?`, `Value.read?`.
-/

namespace ScriptSchema

/-! ## Numbers -/

namespace Number

/-- The form of a JSON numeral. -/
def numeral : Pattern :=
  .atMostOne (.ofChars ['-']) ++
    (Pattern.char '0').or (.one (.ofRanges [('1', '9')]) ++ .many .digit) ++
    (Pattern.char '.' ++ .some .digit).maybe ++
    (Pattern.one (.ofChars ['e', 'E']) ++ .atMostOne (.ofChars ['+', '-']) ++ .some .digit).maybe

/-- The number of a numeral. A negative zero is a double, since no whole number is one. -/
def read? (cs : List Char) : Option Number :=
  if !numeral.accepts cs then none
  else
    match Numeral.readWhole? cs with
    | some n =>
      if cs ≠ ['-', '0'] ∧ (inInt64 n || inUInt64 n) then some (.int n)
      else (readScaled? cs).map .float
    | none => (readScaled? cs).map .float

end Number

/-! ## Tokens -/

/-- A token: a bracket, a comma, a colon, or a value without parts. -/
inductive Token where
  | openArray
  | closeArray
  | openObject
  | closeObject
  | comma
  | colon
  | atom (v : Value)

namespace Token

/-- The value of a hexadecimal digit. -/
def hexDigit? (c : Char) : Option Nat :=
  if '0' ≤ c ∧ c ≤ '9' then some (c.toNat - '0'.toNat)
  else if 'a' ≤ c ∧ c ≤ 'f' then some (c.toNat - 'a'.toNat + 10)
  else if 'A' ≤ c ∧ c ≤ 'F' then some (c.toNat - 'A'.toNat + 10)
  else none

/-- The code unit of four hexadecimal digits. -/
def codeUnit? (a b c d : Char) : Option Nat := do
  some (((← hexDigit? a) * 16 + (← hexDigit? b)) * 256 + (← hexDigit? c) * 16 + (← hexDigit? d))

/-- The character behind a backslash. -/
def unescape? : Char → Option Char
  | '"' => some '"'
  | '\\' => some '\\'
  | '/' => some '/'
  | 'b' => some '\x08'
  | 'f' => some '\x0c'
  | 'n' => some '\n'
  | 'r' => some '\x0d'
  | 't' => some '\t'
  | _ => none

/-- The characters of a string up to its closing quote, and what follows the quote. A character
beyond `U+FFFF` is escaped as a pair of surrogates; a surrogate alone is no character. -/
def stringBody? : List Char → Option (List Char × List Char)
  | [] => none
  | '"' :: cs => some ([], cs)
  | '\\' :: 'u' :: a :: b :: c :: d :: cs => do
    let unit ← codeUnit? a b c d
    if 0xd800 ≤ unit ∧ unit < 0xdc00 then
      match cs with
      | '\\' :: 'u' :: a :: b :: c :: d :: cs =>
        let low ← codeUnit? a b c d
        if 0xdc00 ≤ low ∧ low < 0xe000 then
          let (body, rest) ← stringBody? cs
          some (.ofNat (0x10000 + (unit - 0xd800) * 0x400 + (low - 0xdc00)) :: body, rest)
        else none
      | _ => none
    else if 0xdc00 ≤ unit ∧ unit < 0xe000 then none
    else
      let (body, rest) ← stringBody? cs
      some (.ofNat unit :: body, rest)
  | '\\' :: e :: cs => do
    let c ← unescape? e
    let (body, rest) ← stringBody? cs
    some (c :: body, rest)
  | c :: cs =>
    if c < ' ' ∨ c = '\\' then none
    else (stringBody? cs).map fun (body, rest) => (c :: body, rest)

/-- A character that a numeral may have. -/
def inNumeral (c : Char) : Bool := c.isDigit || ['-', '+', '.', 'e', 'E'].contains c

/-- The first token of a text that does not start with a blank, and what follows it. -/
def first? : List Char → Option (Token × List Char)
  | '[' :: cs => some (openArray, cs)
  | ']' :: cs => some (closeArray, cs)
  | '\x7b' :: cs => some (openObject, cs)
  | '\x7d' :: cs => some (closeObject, cs)
  | ',' :: cs => some (comma, cs)
  | ':' :: cs => some (colon, cs)
  | '"' :: cs => (stringBody? cs).map fun (body, rest) => (atom (.string (.ofList body)), rest)
  | 'n' :: 'u' :: 'l' :: 'l' :: cs => some (atom .null, cs)
  | 't' :: 'r' :: 'u' :: 'e' :: cs => some (atom (.bool true), cs)
  | 'f' :: 'a' :: 'l' :: 's' :: 'e' :: cs => some (atom (.bool false), cs)
  | cs =>
    let (numeral, rest) := cs.span inNumeral
    (Number.read? numeral).map fun n => (atom (.number n), rest)

/-- The blanks between tokens. -/
def isGap (c : Char) : Bool := [' ', '\t', '\n', '\x0d'].contains c

/-- The tokens of a text of at most `size` characters. -/
def upTo? : Nat → List Char → Option (List Token)
  | size, cs =>
    match cs.dropWhile isGap, size with
    | [], _ => some []
    | _, 0 => none
    | cs, size + 1 => do
      let (t, rest) ← first? cs
      some (t :: (← upTo? size rest))

/-- The tokens of a text. -/
def ofText? (s : String) : Option (List Token) := upTo? s.length s.toList

end Token

/-! ## Values -/

namespace Value

mutual

/-- The value at the front of the tokens, nested at most `depth` deep, and what follows it. -/
def front? : Nat → List Token → Option (Value × List Token)
  | _, .atom v :: ts => some (v, ts)
  | _ + 1, .openArray :: .closeArray :: ts => some (.array [], ts)
  | depth + 1, .openArray :: ts => (frontItems? depth ts).map fun (vs, ts) => (.array vs, ts)
  | _ + 1, .openObject :: .closeObject :: ts => some (.object [], ts)
  | depth + 1, .openObject :: ts =>
    (frontEntries? depth ts).map fun (es, ts) => (.object (Entries.ofPairs es), ts)
  | _, _ => none

/-- Items up to the closing bracket. -/
def frontItems? : Nat → List Token → Option (List Value × List Token)
  | 0, _ => none
  | n + 1, ts => do
    let (v, ts) ← front? n ts
    match ts with
    | .closeArray :: ts => some ([v], ts)
    | .comma :: ts => (frontItems? n ts).map fun (vs, ts) => (v :: vs, ts)
    | _ => none

/-- Entries up to the closing brace. -/
def frontEntries? : Nat → List Token → Option (List (String × Value) × List Token)
  | n + 1, .atom (.string k) :: .colon :: ts => do
    let (v, ts) ← front? n ts
    match ts with
    | .closeObject :: ts => some ([(k, v)], ts)
    | .comma :: ts => (frontEntries? n ts).map fun (es, ts) => ((k, v) :: es, ts)
    | _ => none
  | _, _ => none

end

/-- The value that the tokens make up; every step of reading uses up a token. -/
def ofTokens? (ts : List Token) : Option Value :=
  match front? ts.length ts with
  | some (v, []) => some v
  | _ => none

/-- The value that a text stands for. -/
def read? (s : String) : Option Value := (Token.ofText? s).bind ofTokens?

end Value

end ScriptSchema
