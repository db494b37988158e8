import ScriptSchema.Number.Decimal

/-!
# The shortest decimal of a double

The doubles divide the reals into intervals of reals that round to them. The shortest decimal of a
double is the decimal of fewest digits in its interval and, of those, the nearest to the double.

* `Rounding`: the double and the ends of its interval over one denominator;
* `Rounding.onGrid?`: the best multiple of a power of ten in the interval;
* `shortestDecimal?`: the first grid with a hit, from one digit to seventeen.
-/

namespace ScriptSchema

/-- The value `value / den` of a positive double and the interval `low / den` to `high / den` of
reals that round to it; the ends belong to it if `closed`. -/
structure Rounding where
  value : Nat
  low : Nat
  high : Nat
  den : Nat
  closed : Bool

namespace Rounding

/-- The interval reaches half way to both neighbours, and the lower neighbour of a power of two is
twice as near. -/
def ofBinary (b : Binary) : Rounding :=
  let lower := if b.mantissa = twoTo 52 ∧ b.exponent ≠ Binary.minExponent then 1 else 2
  let closed := b.mantissa % 2 == 0
  let unit := twoTo (b.exponent - 2).natAbs
  if 2 ≤ b.exponent then
    ⟨4 * b.mantissa * unit, (4 * b.mantissa - lower) * unit, (4 * b.mantissa + 2) * unit, 1, closed⟩
  else ⟨4 * b.mantissa, 4 * b.mantissa - lower, 4 * b.mantissa + 2, unit, closed⟩

/-- The same interval with all numbers multiplied by `10 ^ -place`. -/
def scale (r : Rounding) (place : Int) : Rounding :=
  let unit := Decimal.tenTo place.natAbs
  if 0 ≤ place then { r with den := r.den * unit }
  else { r with value := r.value * unit, low := r.low * unit, high := r.high * unit }

/-- The integer `n` lies in the interval. -/
def holds (r : Rounding) (n : Nat) : Bool :=
  if r.closed then decide (r.low ≤ n * r.den) && decide (n * r.den ≤ r.high)
  else decide (r.low < n * r.den) && decide (n * r.den < r.high)

/-- The integer of the interval that is nearest to the value, if there is one, a tie going to the
even one: it is one of the two integers around the value. -/
def nearest? (r : Rounding) : Option Nat :=
  let down := r.value / r.den
  match r.holds down, r.holds (down + 1) with
  | true, true => some (roundHalfEven r.value r.den)
  | true, false => some down
  | false, true => some (down + 1)
  | false, false => none

/-- The best multiple of `10 ^ place` in the interval. -/
def onGrid? (r : Rounding) (place : Int) : Option Nat := (r.scale place).nearest?

/-- The exponent of the first decimal place of the value. -/
def leadingPlace (r : Rounding) : Int :=
  (Nat.toDigits 10 (r.value * Decimal.tenTo 330 / r.den)).length - 330

end Rounding

/-- Removes zeros at the end, which belong to the exponent. -/
def Decimal.trimZeros (d : Decimal) : Nat → Decimal
  | 0 => d
  | n + 1 =>
    if d.digits % 10 = 0 then
      trimZeros { d with digits := d.digits / 10, exponent := d.exponent + 1 } n
    else d

/-- **The shortest decimal of a double**; seventeen digits always suffice. Zero and what is not
finite has none. -/
def shortestDecimal? (x : Float) : Option Decimal := do
  let b ← Binary.ofFloat? x
  if b.mantissa = 0 then none
  let r := Rounding.ofBinary b
  (List.range 17).findSome? fun n => do
    let place := r.leadingPlace - (n + 1 : Nat)
    let digits ← r.onGrid? place
    some ((Decimal.mk b.negative digits place).trimZeros 17)

end ScriptSchema
