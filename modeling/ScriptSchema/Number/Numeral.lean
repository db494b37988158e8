/-!
# Decimal numerals

A numeral has an optional sign, digits with an optional point among, before or after them, and an
optional exponent: `12`, `-0.5`, `.5`, `5.`, `1e3`. Which number it stands for is left to
`ScriptSchema.Number.Decimal`, which is exact, and to `ScriptSchema.Number.Scaled`, which is not.

* `Numeral`, `Numeral.read?`;
* `Numeral.readWhole?`: a numeral without point and exponent, as a whole number.
-/

namespace ScriptSchema

/-- The parts of a numeral: its digits before and behind the point. -/
structure Numeral where
  negative : Bool
  whole : List Char
  places : List Char
  exponent : Int
deriving DecidableEq

namespace Numeral

/-- The value of a digit. -/
def digit (d : Char) : Nat := d.toNat - '0'.toNat

/-- The value of a row of digits. -/
def valueOf (ds : List Char) : Nat := ds.foldl (fun n d => 10 * n + digit d) 0

/-- A sign, if there is one, and what follows it. -/
def readSign : List Char → Bool × List Char
  | '-' :: cs => (true, cs)
  | '+' :: cs => (false, cs)
  | cs => (false, cs)

/-- A signed whole number that fills the text. -/
def readWhole? (cs : List Char) : Option Int :=
  let (negative, ds) := readSign cs
  if ds.isEmpty || !ds.all Char.isDigit then none
  else some (if negative then -valueOf ds else valueOf ds)

/-- An exponent that fills the text, or no exponent. -/
def readExponent? : List Char → Option Int
  | [] => some 0
  | c :: cs => if c = 'e' ∨ c = 'E' then readWhole? cs else none

/-- The digits behind a point, if there is one, and what follows them. -/
def readPlaces : List Char → List Char × List Char
  | '.' :: cs => cs.span Char.isDigit
  | cs => ([], cs)

/-- A numeral that fills the text. -/
def read? (cs : List Char) : Option Numeral :=
  let (negative, cs) := readSign cs
  let (whole, cs) := cs.span Char.isDigit
  let (places, cs) := readPlaces cs
  if whole.isEmpty && places.isEmpty then none
  else (readExponent? cs).map fun e => ⟨negative, whole, places, e⟩

end Numeral

end ScriptSchema
