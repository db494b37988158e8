import ScriptSchema.Number.Binary
import ScriptSchema.Number.Numeral

/-!
# Decimal fractions

A numeral stands for a decimal fraction, which has a nearest double.

* `Decimal`, `Numeral.decimal`: the fraction as `± digits · 10 ^ exponent`;
* `Decimal.toFloat?`: the nearest double;
* `readFloat?`: the double of a text.
-/

namespace ScriptSchema

/-- The number `± digits · 10 ^ exponent`. -/
structure Decimal where
  negative : Bool
  digits : Nat
  exponent : Int
deriving DecidableEq

/-- The number that a numeral stands for. -/
def Numeral.decimal (n : Numeral) : Decimal :=
  ⟨n.negative, valueOf (n.whole ++ n.places), n.exponent - n.places.length⟩

namespace Decimal

/-- A power of ten. -/
def tenTo (n : Nat) : Nat := Nat.pow 10 n

/-- The exponent of the first decimal place of a positive number. -/
def leadingPlace (d : Decimal) : Int := (Nat.toDigits 10 d.digits).length + d.exponent

/-- The nearest double, or nothing if the number is out of range. What is below `10 ^ -330` is
nearest to zero and what is above `10 ^ 310` out of range, so that powers of ten stay of moderate
size. -/
def toFloat? (d : Decimal) : Option Float :=
  if d.digits = 0 ∨ d.leadingPlace < -330 then nearestDouble? d.negative 0 1
  else if 310 < d.leadingPlace then none
  else if 0 ≤ d.exponent then nearestDouble? d.negative (d.digits * tenTo d.exponent.natAbs) 1
  else nearestDouble? d.negative d.digits (tenTo d.exponent.natAbs)

end Decimal

/-- The double nearest to the numeral that fills the text, if the text is one and it is in range. -/
def readFloat? (cs : List Char) : Option Float :=
  (Numeral.read? cs).bind fun n => n.decimal.toFloat?

end ScriptSchema
