import ScriptSchema.Json.Value
import ScriptSchema.Number.Shortest

/-!
# The text of a JSON value

The compact text: no blanks, entries in their order, doubles by their shortest decimal.

* `escaped`: the characters of a string between its quotes;
* `Number.text`: whole numbers in decimal, doubles always with a point or an exponent;
* `Value.text`, and `Value.shown`, the text of a value inside a message.
-/

namespace ScriptSchema

/-! ## Strings -/

/-- How one character is written inside quotes: the quote, the backslash and the characters below
the space are escaped. -/
def escaped (c : Char) : List Char :=
  if c = '"' then ['\\', '"']
  else if c = '\\' then ['\\', '\\']
  else if c = '\x08' then ['\\', 'b']
  else if c = '\x0c' then ['\\', 'f']
  else if c = '\n' then ['\\', 'n']
  else if c = '\x0d' then ['\\', 'r']
  else if c = '\t' then ['\\', 't']
  else if c < ' ' then
    ['\\', 'u', '0', '0', Nat.digitChar (c.toNat / 16), Nat.digitChar (c.toNat % 16)]
  else [c]

/-- A string between quotes. -/
def quoted (s : String) : String := "\"" ++ .ofList (s.toList.flatMap escaped) ++ "\""

/-! ## Numbers -/

/-- Which doubles are written without an exponent: those whose first digit stands at a place from
`10 ^ lowest` to `10 ^ highest`. -/
structure PositionalRange where
  lowest : Int
  highest : Int

/-- From `0.00001` to below `10 ^ 16`. -/
def positionalRange : PositionalRange := ⟨-5, 15⟩

/-- Digits with the point behind the first `place + 1` of them, padded with zeros. -/
def positional (digits : List Char) (place : Int) : List Char :=
  if place < 0 then '0' :: '.' :: List.replicate (place.natAbs - 1) '0' ++ digits
  else
    let whole := place.toNat + 1
    if digits.length ≤ whole then digits ++ List.replicate (whole - digits.length) '0' ++ ['.', '0']
    else digits.take whole ++ '.' :: digits.drop whole

/-- Digits with the point behind the first one, and an exponent with a sign. -/
def scientific (digits : List Char) (place : Int) : List Char :=
  let places := digits.drop 1
  digits.take 1 ++ (if places.isEmpty then [] else '.' :: places) ++
    'e' :: (if place < 0 then '-' else '+') :: Nat.toDigits 10 place.natAbs

namespace Decimal

/-- The text of a decimal: positional in the given range, scientific outside it. -/
def text (range : PositionalRange) (d : Decimal) : List Char :=
  let digits := Nat.toDigits 10 d.digits
  let place := digits.length - 1 + d.exponent
  (if d.negative then ['-'] else []) ++
    if range.lowest ≤ place ∧ place ≤ range.highest then positional digits place
    else scientific digits place

example : text positionalRange ⟨false, 12, 0⟩ = "12.0".toList := by decide

example : text positionalRange ⟨true, 1, -5⟩ = "-0.00001".toList := by decide

example : text positionalRange ⟨false, 15, 15⟩ = "1.5e+16".toList := by decide

end Decimal

namespace Number

/-- The text of a number. Zero has no shortest decimal; a double that is not finite is not JSON and
is written as `null`. -/
def text : Number → String
  | int n => toString n
  | float x =>
    match Binary.ofFloat? x, shortestDecimal? x with
    | none, _ => "null"
    | some b, none => if b.negative then "-0.0" else "0.0"
    | some _, some d => .ofList (d.text positionalRange)

end Number

/-! ## Values -/

namespace Value

mutual

/-- **The compact text of a value.** -/
def text : Value → String
  | null => "null"
  | bool b => if b then "true" else "false"
  | number n => n.text
  | string s => quoted s
  | array items => "[" ++ ",".intercalate (itemTexts items) ++ "]"
  | object entries => "\x7b" ++ ",".intercalate (entryTexts entries) ++ "\x7d"

/-- The texts of an array's items. -/
def itemTexts : List Value → List String
  | [] => []
  | v :: vs => v.text :: itemTexts vs

/-- The texts of an object's entries. -/
def entryTexts : List (String × Value) → List String
  | [] => []
  | (k, v) :: es => (quoted k ++ ":" ++ v.text) :: entryTexts es

end

/-- How a value reads inside a message: a string as it is, anything else as its text. -/
def shown (v : Value) : String := v.string?.getD v.text

end Value

end ScriptSchema
