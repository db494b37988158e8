/-!
# Doubles as binary fractions

A finite double is `± m · 2 ^ q` with `m < 2 ^ 53` and `-1074 ≤ q`. This module takes a double apart
and finds the double that is nearest to a fraction, all in exact integer arithmetic.

* `twoTo`, `Binary`, `Binary.ofFloat?`;
* `roundHalfEven`: a quotient to the nearest integer;
* `nearestDouble?`: a fraction to the nearest double;
* `isWhole`: a double without a fractional part.
-/

namespace ScriptSchema

/-- A power of two. -/
def twoTo (n : Nat) : Nat := Nat.pow 2 n

/-- The number `± mantissa · 2 ^ exponent`. -/
structure Binary where
  negative : Bool
  mantissa : Nat
  exponent : Int
deriving DecidableEq

namespace Binary

/-- The least exponent of a double. -/
def minExponent : Int := -1074

/-- A double taken apart; infinities and texts that are not numbers have no parts. -/
def ofFloat? (x : Float) : Option Binary :=
  let bits := x.toBits.toNat
  let negative := decide (twoTo 63 ≤ bits)
  let field : Nat := bits / twoTo 52 % twoTo 11
  let fraction := bits % twoTo 52
  if field = 2047 then none
  else if field = 0 then some ⟨negative, fraction, minExponent⟩
  else some ⟨negative, twoTo 52 + fraction, (field : Int) - 1075⟩

/-- The number has no fractional part. -/
def isWhole (b : Binary) : Bool :=
  decide (0 ≤ b.exponent) || b.mantissa % twoTo b.exponent.natAbs == 0

end Binary

/-- A finite double without a fractional part. -/
def isWhole (x : Float) : Bool := (Binary.ofFloat? x).any Binary.isWhole

/-! ## The nearest double -/

/-- The integer nearest to `num / den`, a half going to the even neighbour. -/
def roundHalfEven (num den : Nat) : Nat :=
  let down := num / den
  let twice := 2 * (num % den)
  if den < twice || (twice == den && down % 2 == 1) then down + 1 else down

/-- The rounded quotient is at most half a unit away. -/
theorem roundHalfEven_near (num : Nat) {den : Nat} (h : 0 < den) :
    2 * num ≤ 2 * (roundHalfEven num den * den) + den ∧
      2 * (roundHalfEven num den * den) ≤ 2 * num + den := by
  have hdiv : num / den * den + num % den = num := Nat.div_add_mod' num den
  have hlt : num % den < den := Nat.mod_lt num h
  unfold roundHalfEven
  dsimp only
  split
  · rename_i hup
    simp only [Bool.or_eq_true, decide_eq_true_eq, Bool.and_eq_true, beq_iff_eq] at hup
    rw [Nat.add_mul, Nat.one_mul]
    omega
  · rename_i hdown
    simp only [Bool.or_eq_true, decide_eq_true_eq, Bool.and_eq_true, beq_iff_eq, not_or] at hdown
    omega

/-- `(n, d)` with `n / d = (num / den) / 2 ^ q`. -/
def divPow2 (num den : Nat) (q : Int) : Nat × Nat :=
  if 0 ≤ q then (num, den * twoTo q.natAbs) else (num * twoTo q.natAbs, den)

/-- The exponent of the last binary place of the double nearest to `num / den`; the least one for
zero. -/
def lastPlace (num den : Nat) : Int :=
  if num = 0 then Binary.minExponent else
  let guess : Int := num.log2 - den.log2
  let (n, d) := divPow2 num den guess
  max Binary.minExponent ((if n < d then guess - 1 else guess) - 52)

/-- The double nearest to `± num / den`, a tie going to the even mantissa, or nothing if that is out
of range. The bits of a positive double count the doubles below it, so a mantissa that rounds up to
`2 ^ 53` carries into the exponent by itself. -/
def nearestDouble? (negative : Bool) (num den : Nat) : Option Float :=
  let q := lastPlace num den
  let (n, d) := divPow2 num den q
  let bits := (q - Binary.minExponent).toNat * twoTo 52 + roundHalfEven n d
  if 2047 * twoTo 52 ≤ bits then none
  else some (Float.ofBits (.ofNat (if negative then twoTo 63 + bits else bits)))

end ScriptSchema
