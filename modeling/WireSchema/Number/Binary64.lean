import WireSchema.Number.Power

/-!
# Binary64 numbers

A floating-point number is kept as its 64 bits: a sign, an exponent field of 11
bits and a fraction of 52 bits.  A finite number is `± significand * 2 ^ (scale -
1075)`, with `significand` and `scale` read off the fields, so that every
conversion here is arithmetic on natural numbers.

## Conversions

* `Binary64.ofInt`: the nearest binary64 number, ties to the even significand.
* `Binary64.truncate`: the integer part as a 64-bit integer; what lies outside
  the range goes to the nearer end, and NaN to zero.
* `Binary64.narrow`: the bits of the nearest binary32 number, ties to even.
-/

namespace WireSchema

/-- A binary64 number, as its bits. -/
structure Binary64 where
  bits : UInt64
  deriving DecidableEq, Inhabited, Repr

/-- `m / 2 ^ k`, rounded to the nearest natural number, ties to the even one. -/
def roundShift (m k : Nat) : Nat :=
  let quotient := m >>> k
  let remainder := m - quotient <<< k
  let half := 1 <<< k
  if 2 * remainder > half ∨ (2 * remainder = half ∧ quotient % 2 = 1) then quotient + 1
  else quotient

/-- The 64-bit integer nearest to `n`. -/
def saturate (n : Int) : Int64 :=
  if n < Int64.minValue.toInt then Int64.minValue
  else if n > Int64.maxValue.toInt then Int64.maxValue
  else Int64.ofInt n

namespace Binary64

/-- Zero, with a positive sign. -/
def zero : Binary64 := ⟨0⟩

/-- The sign bit. -/
def isNegative (x : Binary64) : Bool :=
  x.bits.toNat / twoPow 63 == 1

/-- The exponent field. -/
def exponentField (x : Binary64) : Nat :=
  x.bits.toNat / twoPow 52 % twoPow 11

/-- The fraction field. -/
def fraction (x : Binary64) : Nat :=
  x.bits.toNat % twoPow 52

/-- Neither an infinity nor NaN. -/
def isFinite (x : Binary64) : Bool :=
  x.exponentField != 2047

/-- Not a number. -/
def isNaN (x : Binary64) : Bool :=
  x.exponentField == 2047 && x.fraction != 0

/-- The significand of a finite number, with its hidden bit. -/
def significand (x : Binary64) : Nat :=
  if x.exponentField = 0 then x.fraction else x.fraction + twoPow 52

/-- The exponent of a finite number's significand, plus 1075. -/
def scale (x : Binary64) : Nat :=
  max x.exponentField 1

/-- The number nearest to `n`, ties to the even significand. -/
def ofInt (n : Int64) : Binary64 :=
  let magnitude := n.toInt.natAbs
  if magnitude = 0 then zero
  else
    let top := magnitude.log2
    let significand :=
      if top ≤ 52 then magnitude <<< (52 - top) else roundShift magnitude (top - 52)
    let sign := if n.toInt < 0 then twoPow 63 else 0
    ⟨UInt64.ofNat (sign + (top + 1022) * twoPow 52 + significand)⟩

/-- The integer part of the absolute value of a finite number. -/
def integerPart (x : Binary64) : Nat :=
  if x.scale ≤ 1075 then x.significand >>> (1075 - x.scale)
  else x.significand <<< (x.scale - 1075)

/-- The integer part as a 64-bit integer, saturating; NaN gives zero. -/
def truncate (x : Binary64) : Int64 :=
  if x.isFinite then
    saturate (if x.isNegative then -(x.integerPart : Int) else x.integerPart)
  else if x.isNaN then 0
  else if x.isNegative then Int64.minValue
  else Int64.maxValue

/-- The bits of binary32 infinity, which are also the first bits beyond the finite
numbers. -/
def narrowInfinity : Nat := 0x7F800000

/-- The bits of the nearest binary32 number, ties to even.  A NaN becomes the quiet
NaN without a sign. -/
def narrow (x : Binary64) : UInt32 :=
  if x.isNaN then 0x7FC00000
  else
    let sign := if x.isNegative then twoPow 31 else 0
    let magnitude :=
      if !x.isFinite then narrowInfinity
      else if 896 < x.scale then
        min ((x.scale - 897) * twoPow 23 + roundShift x.significand 29) narrowInfinity
      else roundShift x.significand (29 + (897 - x.scale))
    UInt32.ofNat (sign + magnitude)

example : (ofInt 1).bits = 0x3FF0000000000000 ∧ (ofInt 9007199254740993).bits = 0x4340000000000000 ∧
    (ofInt Int64.maxValue).bits = 0x43E0000000000000 := by decide +kernel

example : truncate ⟨0xC00D99999999999A⟩ = -3 ∧ truncate ⟨0x7FF0000000000000⟩ = Int64.maxValue := by
  decide +kernel

example : narrow ⟨0x4170000010000000⟩ = 0x4B800000 ∧ narrow ⟨0x3FF8000000000000⟩ = 0x3FC00000 ∧
    narrow ⟨0x7E37E43C8800759C⟩ = 0x7F800000 := by decide +kernel

end Binary64

end WireSchema
