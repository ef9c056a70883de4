import WireSchema.Number.Binary64

/-!
# Decimal text of a binary64 number

Two questions are kept apart.  *Which digits*: `Binary64.shortest` is the decimal
number with the fewest digits among those that round to the given number, and of
two such the nearer one.  It is found in exact arithmetic: on the grid of the
multiples of a power of ten only the two neighbours of the number can be nearest,
and the coarsest grid with a neighbour inside the rounding interval has the
shortest decimals.  *How they are written*: a `DecimalLayout` holds the decisions
of an output format.

## Definitions

* `Decimal`: a number `digits * 10 ^ exponent`.
* `Binary64.shortest`: the digits.
* `DecimalLayout.render`: the text.
-/

namespace WireSchema

/-- The number `digits * 10 ^ exponent`. -/
structure Decimal where
  digits : Nat
  exponent : Int
  deriving DecidableEq, Repr

/-- The numbers that round to a given one, scaled to natural numbers: a real `x` is
inside when `low ≤ x * unit ≤ high`, the ends counting only if `closed`. -/
structure RoundingInterval where
  low : Nat
  middle : Nat
  high : Nat
  unit : Nat
  closed : Bool

/-- `digits * 10 ^ exponent` lies inside the interval. -/
def RoundingInterval.contains (interval : RoundingInterval) (d : Decimal) : Bool :=
  let grow := tenPow (-d.exponent).toNat
  let point := d.digits * tenPow d.exponent.toNat * interval.unit
  if interval.closed then interval.low * grow ≤ point && point ≤ interval.high * grow
  else interval.low * grow < point && point < interval.high * grow

/-- The nearer of the two neighbours of the middle among the multiples of
`10 ^ exponent` that lie inside the interval.  A tie goes to the even digit. -/
def RoundingInterval.nearestOnGrid? (interval : RoundingInterval) (exponent : Int) :
    Option Decimal :=
  let middle := interval.middle * tenPow (-exponent).toNat
  let step := tenPow exponent.toNat * interval.unit
  let below : Decimal := ⟨middle / step, exponent⟩
  let above : Decimal := ⟨middle / step + 1, exponent⟩
  let toBelow := middle % step
  let toAbove := step - toBelow
  match interval.contains below, interval.contains above with
  | true, true =>
    if toBelow < toAbove ∨ (toBelow = toAbove ∧ below.digits % 2 = 0) then some below
    else some above
  | true, false => some below
  | false, true => some above
  | false, false => none

namespace Binary64

/-- The numbers that round to the finite number `|x|`.  The lower half of the interval
is shorter at a power of two, and the ends belong to it when the significand is even. -/
def roundingInterval (x : Binary64) : RoundingInterval :=
  let lowGap := if x.fraction = 0 ∧ x.exponentField > 1 then 1 else 2
  let grow := twoPow (x.scale - 1077)
  { low := (4 * x.significand - lowGap) * grow
    middle := 4 * x.significand * grow
    high := (4 * x.significand + 2) * grow
    unit := twoPow (1077 - x.scale)
    closed := x.significand % 2 == 0 }

/-- An exponent of ten whose power exceeds the finite number `|x|`. -/
def decimalBound (x : Binary64) : Int :=
  (((x.scale : Int) - 1075 + x.significand.log2 + 1) * 30103).fdiv 100000 + 1

/-- The shortest decimal that rounds to the finite number `|x|`; zero has the digit 0.
Twenty grids from the bound down reach the seventeen digits that always suffice. -/
def shortest (x : Binary64) : Decimal :=
  if x.significand = 0 then ⟨0, 0⟩
  else
    ((List.range 20).findSome? fun (i : Nat) =>
      x.roundingInterval.nearestOnGrid? (x.decimalBound - i)).getD ⟨0, 0⟩

end Binary64

/-- The decisions of a format for floating-point text. -/
structure DecimalLayout where
  /-- Least exponent of the leading digit that is written positionally. -/
  leastPositional : Int
  /-- Greatest exponent of the leading digit that is written positionally. -/
  greatestPositional : Int
  /-- What stands before the exponent in scientific notation, by its sign. -/
  exponentMark : Bool → String
  /-- What is written for a number that is not finite. -/
  notFinite : String

/-- The text of `d` in the layout, without a sign. -/
def DecimalLayout.renderDecimal (layout : DecimalLayout) (d : Decimal) : String :=
  let digits := (Nat.repr d.digits).toList
  let leading := d.exponent + digits.length - 1
  if layout.leastPositional ≤ leading ∧ leading ≤ layout.greatestPositional then
    if leading < 0 then
      "0." ++ String.ofList (List.replicate (-leading - 1).toNat '0' ++ digits)
    else if d.exponent ≥ 0 then
      String.ofList (digits ++ List.replicate d.exponent.toNat '0') ++ ".0"
    else
      String.ofList (digits.take (leading + 1).toNat) ++ "." ++
        String.ofList (digits.drop (leading + 1).toNat)
  else
    let fraction := if digits.length = 1 then [] else '.' :: digits.drop 1
    String.ofList (digits.take 1 ++ fraction) ++ layout.exponentMark (leading < 0) ++
      Nat.repr leading.natAbs

/-- The text of a binary64 number in the layout. -/
def DecimalLayout.render (layout : DecimalLayout) (x : Binary64) : String :=
  if x.isFinite then
    let sign := if x.isNegative then "-" else ""
    sign ++ layout.renderDecimal x.shortest
  else layout.notFinite

end WireSchema
