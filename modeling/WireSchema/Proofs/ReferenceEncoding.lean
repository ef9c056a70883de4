import Mathlib.Algebra.Order.Ring.Int
import WireSchema.Encoding.Scalar
import WireSchema.Packing.Layout

/-!
# A reference for encodings

What a root is encoded as, put together from lists of bytes.  There is no buffer here, no
cursor and no place: members follow one another because their bytes are appended, and all
that is known about the part of the encoding that comes before is how long it is.

An `Image` is what a value becomes, its bytes in the packed type and its payload.  The
image of a variable-length array says where its elements are, so it depends on where the
next payload goes: a `Piece` is an image that is not given before that is known.

## Main definitions

* `littleEndian`: the bytes of numbers.
* `Reference.typeSize`: the sizes of packed types.
* `Reference.record`, `Reference.root`: the image of a record, and of a root.
-/

namespace WireSchema

/-- The low `width` bytes of a number, least significant first. -/
def littleEndian : (width n : Nat) → List UInt8
  | 0, _ => []
  | width + 1, n => UInt8.ofNat (n % 256) :: littleEndian width (n / 256)

/-- What a value becomes: its bytes in the packed type, and its payload. -/
structure Image where
  place : List UInt8
  payload : List UInt8
  deriving DecidableEq

/-- An image that depends on where its payload goes; there may be none. -/
abbrev Piece := (next : Nat) → Option Image

namespace Piece

/-- Bytes without payload. -/
def bytes (bytes : Option (List UInt8)) : Piece := fun _ =>
  bytes.map fun bytes => ⟨bytes, []⟩

/-- One piece after another, and so are their payloads. -/
def append (first second : Piece) : Piece := fun next => do
  let image ← first next
  let image' ← second (next + image.payload.length)
  return ⟨image.place ++ image'.place, image.payload ++ image'.payload⟩

/-- Pieces one after another. -/
def concat : List Piece → Piece
  | [] => bytes (some [])
  | piece :: rest => piece.append (concat rest)

/-- As many pieces as there are to be elements; items that are not there are absent. -/
def repeated (count : Nat) (piece : Option Value → Piece) (items : List Value) : Piece :=
  concat ((List.range count).map fun i => piece items[i]?)

/-- A piece in a place of `size` bytes, with zeros behind. -/
def padded (size : Nat) (piece : Piece) : Piece := fun next => do
  let image ← piece next
  return ⟨image.place ++ List.replicate (size - image.place.length) 0, image.payload⟩

/-- Elements of `size` bytes as payload, if that ends at `room` at most, and a descriptor
that refers to them; otherwise a zero descriptor. -/
def described (size room : Nat) (elements : Piece) : Piece := fun next =>
  if 0 < size ∧ next + size ≤ room then do
    let image ← elements (next + size)
    return ⟨littleEndian 2 next ++ littleEndian 2 size, image.place ++ image.payload⟩
  else some ⟨List.replicate descriptorSize 0, []⟩

theorem described_of_fits {size room next : Nat} {elements : Piece} {image : Image}
    (h : 0 < size ∧ next + size ≤ room) (hElements : elements (next + size) = some image) :
    elements.described size room next =
      some ⟨littleEndian 2 next ++ littleEndian 2 size, image.place ++ image.payload⟩ := by
  rw [described, if_pos h, hElements]
  rfl

theorem described_of_not_fits {size room next : Nat} (elements : Piece)
    (h : ¬ (0 < size ∧ next + size ≤ room)) :
    elements.described size room next = some ⟨List.replicate descriptorSize 0, []⟩ := by
  rw [described, if_neg h]

end Piece

/-- How a member, or an element of it, is represented. -/
def Placement.representation : Placement → Representation
  | value representation => representation
  | descriptor element => element

/-- What an encoding depends on besides the value. -/
structure Reference where
  program : Program
  primitives : Primitives
  constants : Table Int64
  /-- Where payload ends at the latest. -/
  room : Nat

namespace Reference

/-! ## Sizes -/

/-- The size of one value, given the sizes of aggregates. -/
def valueSize (primitives : Primitives) (sizeOf : String → Nat) : Representation → Nat
  | .primitive spec => ((primitives.resolve? spec).map Primitive.size).getD 0
  | .record ref => sizeOf ref.source

/-- The size of a member, given the sizes of aggregates. -/
def memberSize (primitives : Primitives) (sizeOf : String → Nat) (member : PackedMember) : Nat :=
  let size := match member.placement with
    | .value representation => valueSize primitives sizeOf representation
    | .descriptor _ => descriptorSize
  size * member.arrayLength.getD 1

/-- The size of a packed type among `types`, of which each contains later ones only. -/
def sizeAmong (primitives : Primitives) : (types : List PackedType) → String → Nat
  | [], _ => 0
  | type :: types, source =>
    if source = type.source then
      let sizes := type.members.map (memberSize primitives (sizeAmong primitives types))
      match type.kind with
      | .struct => sizes.sum
      | .union => sizes.foldr max 0
    else sizeAmong primitives types source

variable (ref : Reference)

/-- The size of a packed type. -/
def typeSize (source : String) : Nat :=
  sizeAmong ref.primitives ref.program.types.reverse source

/-! ## Images of values -/

/-- The member of a packed type. -/
def member? (source field : String) : Option PackedMember := do
  let type ← ref.program.type? source
  type.members.find? (·.name == field)

/-- The value of a constant. -/
def literal? : Literal → Option Int64
  | .int value => some value
  | .symbol name => ref.constants.get? name

/-- The integer that a value stands for, zero if it is absent. -/
def integer? : Option Value → Option Int64
  | none => some 0
  | some value => value.toInt?

/-- The floating-point number that a value stands for, zero if it is absent. -/
def float? : Option Value → Option Binary64
  | none => some Binary64.zero
  | some value => value.toFloat?

/-- The length of an array that a record gives. -/
def length? (input : Option Value) (lengthField : String) : Option Nat := do
  let n ← integer? (fieldOf input lengthField)
  if n.toInt < 0 then none else some n.toInt.toNat

/-- The bytes of a scalar: of an integer in two's complement, of a truth value zero or one, of
a floating-point number as its format has them. -/
def scalarBytes? (primitive : Primitive) (value : Option Value) : Option (List UInt8) :=
  match primitive.scalar with
  | .unsigned | .signed => do
    let n ← integer? value
    return littleEndian primitive.size (n.toInt % 256 ^ primitive.size).toNat
  | .bool => do
    let n ← integer? value
    return littleEndian primitive.size (if n = 0 then 0 else 1)
  | .float => do
    let x ← float? value
    if primitive.size = 4 then return littleEndian 4 x.narrow.toNat
    else if primitive.size = 8 then return littleEndian 8 x.bits.toNat
    else none

/-- A scalar of a primitive type. -/
def scalar (representation : Representation) (value : Option Value) : Piece :=
  match representation with
  | .primitive spec =>
    .bytes ((ref.primitives.resolve? spec).bind fun primitive => scalarBytes? primitive value)
  | .record _ => fun _ => none

/-- A source value that is copied, where `call` gives the images of records. -/
def copy (call : String → Option Value → Piece) (representation : Representation) :
    Copy → Option Value → Piece
  | .scalar, value => ref.scalar representation value
  | .array length, value => .repeated length (ref.scalar representation) (itemsOf value)
  | .record source _ _, value => call source value
  | .recordArray source _ length, value => .repeated length (call source) (itemsOf value)

/-- A member of a record of the source type, as its step says. -/
def step (call : String → Option Value → Piece) (source : String) (input : Option Value)
    (step : Step) : Piece := fun next => do
  let member ← ref.member? source step.field
  let size := memberSize ref.primitives ref.typeSize member
  let representation := member.placement.representation
  match step with
  | .fixedScalar _ value =>
    let n ← ref.literal? value
    ref.scalar representation (some (.int n)) next
  | .fixedFill _ value =>
    let n ← ref.literal? value
    return ⟨List.replicate size (UInt8.ofNat (n.toInt % 256).toNat), []⟩
  | .assign field copy => ref.copy call representation copy (fieldOf input field) next
  | .varLen field lengthField _ copy =>
    let count ← length? input lengthField
    let elements := Piece.repeated count (ref.copy call representation copy)
      (itemsOf (fieldOf input field))
    elements.described (count * valueSize ref.primitives ref.typeSize representation) ref.room next
  | .union field record discriminator arms =>
    let selector ← integer? (fieldOf input discriminator)
    let arm ← arms.find? fun arm => ref.literal? arm.value = some selector
    let variant ← ref.member? record.source arm.member
    let active := ref.copy call variant.placement.representation arm.copy
      (fieldOf (fieldOf input field) arm.member)
    active.padded size next

/-- A record of a source type that one of `functions` encodes, of which each calls later ones
only. -/
def recordAmong : (functions : List EncodeFunction) → String → Option Value → Piece
  | [], _, _ => fun _ => none
  | function :: functions, source, input =>
    if source = function.source then
      if input.all Value.isRecord then
        .concat (function.steps.map (ref.step (recordAmong functions) source input))
      else fun _ => none
    else recordAmong functions source input

/-- A record of a source type. -/
def record (source : String) (input : Option Value) : Piece :=
  ref.recordAmong ref.program.encodeFunctions.reverse source input

/-- A root, whose payload follows its packed type. -/
def root (source : String) (value : Value) : Option Image :=
  ref.record source (some value) (ref.typeSize source)

/-! ## Steps of a known member -/

section Steps

variable {ref : Reference} {call : String → Option Value → Piece} {source field : String}
  {member : PackedMember} {input : Option Value} {n : Int64}

theorem step_fixedScalar (hMember : ref.member? source field = some member) {value : Literal}
    (hValue : ref.literal? value = some n) :
    ref.step call source input (.fixedScalar field value) =
      ref.scalar member.placement.representation (some (.int n)) := by
  funext next
  simp only [step, Step.field, hMember, hValue, Option.bind_eq_bind, Option.bind_some]

theorem step_fixedFill (hMember : ref.member? source field = some member) {value : Literal}
    (hValue : ref.literal? value = some n) :
    ref.step call source input (.fixedFill field value) =
      .bytes (some (List.replicate (memberSize ref.primitives ref.typeSize member)
        (UInt8.ofNat (n.toInt % 256).toNat))) := by
  funext next
  simp only [step, Step.field, hMember, hValue, Option.bind_eq_bind, Option.bind_some]
  rfl

theorem step_assign (hMember : ref.member? source field = some member) (copy : Copy) :
    ref.step call source input (.assign field copy) =
      ref.copy call member.placement.representation copy (fieldOf input field) := by
  funext next
  simp only [step, Step.field, hMember, Option.bind_eq_bind, Option.bind_some]

theorem step_varLen (hMember : ref.member? source field = some member) {lengthField : String}
    {count : Nat} (hCount : length? input lengthField = some count) (element : Representation)
    (copy : Copy) :
    ref.step call source input (.varLen field lengthField element copy) =
      (Piece.repeated count (ref.copy call member.placement.representation copy)
        (itemsOf (fieldOf input field))).described
          (count * valueSize ref.primitives ref.typeSize member.placement.representation)
          ref.room := by
  funext next
  simp only [step, Step.field, hMember, hCount, Option.bind_eq_bind, Option.bind_some]

theorem step_union (hMember : ref.member? source field = some member) {discriminator : String}
    (hSelector : integer? (fieldOf input discriminator) = some n) {arms : List UnionArm}
    {arm : UnionArm} (hArm : arms.find? (fun arm => ref.literal? arm.value = some n) = some arm)
    {record : RecordRef} {variant : PackedMember}
    (hVariant : ref.member? record.source arm.member = some variant) :
    ref.step call source input (.union field record discriminator arms) =
      (ref.copy call variant.placement.representation arm.copy
        (fieldOf (fieldOf input field) arm.member)).padded
          (memberSize ref.primitives ref.typeSize member) := by
  funext next
  simp only [step, Step.field, hMember, hSelector, hArm, hVariant, Option.bind_eq_bind,
    Option.bind_some]

end Steps

end Reference

end WireSchema
