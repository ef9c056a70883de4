import WireSchema.Encoding.Fault
import WireSchema.Number.Bytes
import WireSchema.Packing.Primitive
import WireSchema.Value

/-!
# The bytes of scalar values

What a source value becomes in a place for a primitive type.  An absent value is zero;
a number is converted to what the class of the place wants.
-/

namespace WireSchema

/-- The field of a value that may be absent. -/
def fieldOf (value : Option Value) (name : String) : Option Value :=
  value.bind (Value.field? name)

/-- The items of a value that may be absent. -/
def itemsOf (value : Option Value) : List Value :=
  (value.map Value.items).getD []

/-- The integer that the value of `field` stands for. -/
def integerOf (value : Option Value) (field : String) : Except Fault Int64 :=
  match value with
  | none => .ok 0
  | some value =>
    match value.toInt? with
    | some n => .ok n
    | none => .error (.error (.typeMismatch field .number))

/-- The floating-point number that the value of `field` stands for. -/
def floatOf (value : Option Value) (field : String) : Except Fault Binary64 :=
  match value with
  | none => .ok Binary64.zero
  | some value =>
    match value.toFloat? with
    | some x => .ok x
    | none => .error (.error (.typeMismatch field .number))

/-- The number of elements that a length field of a record gives. -/
def lengthOf (value : Option Value) (lengthField : String) : Except Fault Nat := do
  let n ← integerOf (fieldOf value lengthField) lengthField
  if n.toInt < 0 then throw (.error (.typeMismatch lengthField .nonNegativeLength))
  else return n.toInt.toNat

/-- The bytes to write for a value in a place of `size` bytes, from its first byte on.
An integer has eight bytes, of which a smaller place takes the low ones. -/
def scalarBytes (size : Nat) (scalar : Option ScalarClass) (value : Option Value)
    (field : String) : Except Fault (List UInt8) :=
  match scalar with
  | none => .error (.error (.typeMismatch field .recordValue))
  | some .float => do
    let x ← floatOf value field
    if size = 4 then return leBytes 4 x.narrow.toNat
    else if size = 8 then return leBytes 8 x.bits.toNat
    else throw (.error (.typeMismatch field .floatSlot))
  | some .bool => do
    let n ← integerOf value field
    if size = 0 then throw .outOfBounds
    else return (if n = 0 then 0 else 1) :: List.replicate (size - 1) 0
  | some .unsigned | some .signed => do
    let n ← integerOf value field
    return leBytes (min size 8) (wordOf n)

end WireSchema
