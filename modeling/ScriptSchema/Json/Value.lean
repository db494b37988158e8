import ScriptSchema.Entries
import ScriptSchema.Number.Binary

/-!
# JSON values

Values as a script holds them: objects keep the order of their entries, and a whole number is kept
apart from a double of the same size.

* `Number`, `Value`;
* `Value.entry?`, `Value.string?`, `Value.int64?`, …: what a value is read as;
* `Value.same`: equality in which the order of an object's entries does not count.
-/

namespace ScriptSchema

/-- The whole number fits into 64 bits with a sign. -/
def inInt64 (n : Int) : Bool :=
  decide (-9223372036854775808 ≤ n) && decide (n ≤ 9223372036854775807)

/-- The whole number fits into 64 bits without a sign. -/
def inUInt64 (n : Int) : Bool := decide (0 ≤ n) && decide (n ≤ 18446744073709551615)

/-- A whole number of any size, or a double. -/
inductive Number where
  | int (n : Int)
  | float (x : Float)

/-- A JSON value. -/
inductive Value where
  | null
  | bool (b : Bool)
  | number (n : Number)
  | string (s : String)
  | array (items : List Value)
  | object (entries : List (String × Value))

instance : Inhabited Value := ⟨.null⟩

namespace Number

/-- The number has no fractional part. -/
def isWhole : Number → Bool
  | int _ => true
  | float x => ScriptSchema.isWhole x

/-- The number is zero, of either sign. -/
def isZero : Number → Bool
  | int n => n == 0
  | float x => x == 0

/-- The number is at most `bound` away from zero. -/
def within (bound : Nat) : Number → Bool
  | int n => decide (n.natAbs ≤ bound)
  | float x => decide (-.ofNat bound ≤ x) && decide (x ≤ .ofNat bound)

/-- Whole numbers are equal to whole numbers only, and doubles to doubles only. -/
def same : Number → Number → Bool
  | int m, int n => m == n
  | float x, float y => x == y
  | _, _ => false

end Number

namespace Value

/-! ## Readings -/

/-- The text of a string. -/
def string? : Value → Option String
  | string s => some s
  | _ => none

/-- The truth value of a boolean. -/
def bool? : Value → Option Bool
  | bool b => some b
  | _ => none

/-- The items of an array. -/
def array? : Value → Option (List Value)
  | array items => some items
  | _ => none

/-- The entries of an object. -/
def object? : Value → Option (Entries Value)
  | object entries => some entries
  | _ => none

/-- The whole number of a number. -/
def int? : Value → Option Int
  | number (.int n) => some n
  | _ => none

/-- A whole number that fits into 64 bits with a sign. -/
def int64? (v : Value) : Option Int := v.int?.filter inInt64

/-- A whole number that fits into 64 bits without a sign. -/
def uint64? (v : Value) : Option UInt64 :=
  (v.int?.filter inUInt64).map fun n => .ofNat n.toNat

/-- The entry of an object under a key; other values have none. -/
def entry? (v : Value) (key : String) : Option Value := v.object?.bind (List.lookup key)

/-- The whole number `n` as a value. -/
def ofUInt64 (n : UInt64) : Value := number (.int n.toNat)

theorem uint64?_ofUInt64 (n : UInt64) : (ofUInt64 n).uint64? = some n := by
  have h : inUInt64 (n.toNat : Int) = true := by
    have := n.toNat_lt
    simp only [inUInt64, Bool.and_eq_true, decide_eq_true_eq]
    omega
  simp [uint64?, ofUInt64, int?, Option.filter, h]

/-- The value is an object. -/
def isObject (v : Value) : Bool := v.object?.isSome

/-- The value is a string. -/
def isString (v : Value) : Bool := v.string?.isSome

/-! ## Equality up to the order of entries -/

mutual

/-- **Equality of values**: arrays agree item by item, objects have the same keys with equal values
in any order. -/
def same : Value → Value → Bool
  | null, null => true
  | bool a, bool b => a == b
  | number a, number b => a.same b
  | string a, string b => a == b
  | array as, array bs => sameItems as bs
  | object as, object bs => as.length == bs.length && sameEntries as bs
  | _, _ => false

/-- The items agree one by one. -/
def sameItems : List Value → List Value → Bool
  | [], [] => true
  | a :: as, b :: bs => a.same b && sameItems as bs
  | _, _ => false

/-- Every entry has an equal one under its key in `bs`. -/
def sameEntries : List (String × Value) → Entries Value → Bool
  | [], _ => true
  | (k, a) :: as, bs => (bs.lookup k).any (a.same ·) && sameEntries as bs

end

end Value

end ScriptSchema
