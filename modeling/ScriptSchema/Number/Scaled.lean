import ScriptSchema.Number.Decimal

/-!
# Scaled doubles

The fast reading of a numeral: its leading digits, as many as fit into 64 bits, and a power of ten
are each rounded to a double, and so is their product or quotient. The result is the nearest double
as long as digits and power are exact, and may miss it by a little beyond that.

* `takeDigits`: digits as long as they fit;
* `Numeral.leading`: a numeral cut to its leading digits;
* `Decimal.scaled?`: digits times a power of ten, in doubles;
* `readScaled?`: the double of a text;
* `takeDigits_le`: the digits taken do fit.
-/

namespace ScriptSchema

/-- The largest number that fits into 64 bits without a sign. -/
def maxDigits : Nat := 18446744073709551615

/-- Appends digits to a number until one would make it too large; the number and the digits that are
left. -/
def takeDigits (n : Nat) : List Char → Nat × List Char
  | [] => (n, [])
  | d :: ds =>
    let m := 10 * n + Numeral.digit d
    if m ≤ maxDigits then takeDigits m ds else (n, d :: ds)

theorem takeDigits_le {n : Nat} (h : n ≤ maxDigits) (ds : List Char) :
    (takeDigits n ds).1 ≤ maxDigits := by
  induction ds generalizing n with
  | nil => exact h
  | cons d ds ih =>
    unfold takeDigits
    dsimp only
    split
    · rename_i hm
      exact ih hm
    · exact h

/-- A numeral cut to its leading digits. Digits before the point that do not fit still count in the
exponent; those behind it are dropped. -/
def Numeral.leading (n : Numeral) : Decimal :=
  let (whole, wholeLeft) := takeDigits 0 n.whole
  let (digits, placesLeft) := takeDigits whole n.places
  ⟨n.negative, digits, n.exponent + wholeLeft.length - (n.places.length - placesLeft.length : Nat)⟩

namespace Decimal

/-- The double nearest to a power of ten; infinite beyond the 308th. -/
def floatTenTo (n : Nat) : Float := .ofScientific 1 false n

/-- A double times a power of ten, if the power and the product are in range. -/
def scaleUp? (x : Float) (n : Nat) : Option Float :=
  if x == 0 then some x
  else if 308 < n then none
  else
    let y := x * floatTenTo n
    if y.isInf then none else some y

/-- A double of at most 64 bits over a power of ten, which takes two quotients if the power is out
of range; beyond that nothing is left. -/
def scaleDown (x : Float) (n : Nat) : Float :=
  if n ≤ 308 then x / floatTenTo n
  else if n ≤ 616 then x / floatTenTo 308 / floatTenTo (n - 308)
  else 0

/-- **Digits times a power of ten, each rounded to a double and multiplied as doubles**, or nothing
if that is out of range. -/
def scaled? (d : Decimal) : Option Float :=
  let x := Float.ofNat d.digits
  let y? := if 0 ≤ d.exponent then scaleUp? x d.exponent.natAbs else scaleDown x d.exponent.natAbs
  y?.map fun y => if d.negative then -y else y

end Decimal

/-- The double of the numeral that fills the text, read fast, if the text is one and it is in
range. -/
def readScaled? (cs : List Char) : Option Float :=
  (Numeral.read? cs).bind fun n => n.leading.scaled?

end ScriptSchema
