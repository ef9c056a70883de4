import WireSchema.Encoding.Output
import WireSchema.Encoding.Size

/-!
# Running encode functions

An encode function writes a record into the packed type at a place of the buffer, step
by step.  The steps are defined with the encode functions they call as a parameter, and
`Encoder.run` closes the circle.

## Payload

A variable-length array is stored at the cursor if it is not empty and fits: into the
buffer, and below `payloadLimit`.  Otherwise its descriptor is zero and nothing is
stored; later arrays may still fit.

## Entry points

* `Encoder.encodeInto` encodes a value into a caller's buffer, and gives the end of
  what was written together with the buffer as it then is, also after a fault.
* `Encoder.encode` allocates the encoded size first, and gives the bytes.
-/

namespace WireSchema

/-- Encodes a record that may be absent at a place of the buffer. -/
abbrev EncodeCall := EncodeFunction → Option Value → Nat → Encode Unit

namespace Encode

/-- Writes a scalar value in the `size` bytes from `pos` on. -/
def scalar (pos size : Nat) (slot : Option ScalarClass) (value : Option Value)
    (field : String) : Encode Unit := do
  ensureRoom pos size
  store pos (← scalarBytes size slot value field)

/-- Runs `element` for `count` elements at places `size` bytes apart, the first at `pos`.
Elements beyond the end of `items` are absent. -/
def elements (element : Option Value → Nat → Encode Unit) (size : Nat) :
    (count : Nat) → (items : List Value) → (pos : Nat) → Encode Unit
  | 0, _, _ => pure ()
  | count + 1, items, pos => do
    element items.head? pos
    elements element size count items.tail (pos + size)

end Encode

namespace Encoder

/-- Copies the value of `field` to its place at `pos`. -/
def assign (encoder : Encoder) (call : EncodeCall) (copy : Copy) (field : String)
    (value : Option Value) (pos : Nat) (layout : FieldLayout) : Encode Unit :=
  match copy with
  | .scalar => Encode.scalar pos layout.elementSize layout.scalar value field
  | .array length =>
    Encode.elements
      (fun item pos => Encode.scalar pos layout.elementSize layout.scalar item field)
      layout.elementSize length (itemsOf value) pos
  | .record source _ _ => do
    call (← encoder.encodeFunction source) value pos
  | .recordArray source _ length => do
    let function ← encoder.encodeFunction source
    Encode.elements (call function) layout.elementSize length (itemsOf value) pos

/-- The bytes of payload for `count` elements, if an array of that length can be stored
at `cursor` in a buffer of `size` bytes. -/
def reservation? (count elementSize cursor size : Nat) : Option Nat :=
  let length := count * elementSize
  if 0 < length ∧ length ≤ payloadLimit ∧ cursor + length ≤ min size payloadLimit then
    some length
  else none

/-- Stores `count` elements in the payload, and their descriptor at `pos`. -/
def varLen (encoder : Encoder) (call : EncodeCall) (field : String) (count : Nat) (copy : Copy)
    (items : Option Value) (pos : Nat) (layout : FieldLayout) : Encode Unit := do
  let start := (← get).cursor
  match reservation? count layout.elementSize start (← get).buffer.size with
  | none => Encode.storeDescriptor pos 0 0
  | some length => do
    Encode.storeDescriptor pos start length
    Encode.advance length
    let element : FieldLayout :=
      { offset := 0, size := layout.elementSize, elementSize := layout.elementSize, count := 1,
        scalar := layout.scalar }
    Encode.elements
      (fun item pos => encoder.assign call copy field item pos element)
      layout.elementSize count (itemsOf items) start

/-- The first arm for the value of a discriminator. -/
def selectArm (encoder : Encoder) (field : String) (selector : Int64) :
    List UnionArm → Except Fault UnionArm
  | [] => .error (.error (.unmappedDiscriminator field selector))
  | arm :: rest => do
    if (← encoder.valueOf arm.value) = selector then return arm
    else encoder.selectArm field selector rest

/-- Zeroes a union, and copies the member that the discriminator selects. -/
def union (encoder : Encoder) (call : EncodeCall) (field : String) (record : RecordRef)
    (discriminator : String) (arms : List UnionArm) (input : Option Value) (pos : Nat)
    (layout : FieldLayout) : Encode Unit := do
  Encode.fill pos layout.size 0
  let selector ← integerOf (fieldOf input discriminator) discriminator
  let arm ← encoder.selectArm field selector arms
  let variant ← encoder.fieldLayout record.source arm.member
  encoder.assign call arm.copy arm.member (fieldOf (fieldOf input field) arm.member)
    (pos + variant.offset) variant

/-- One step of encoding `input` as `source` at `base`. -/
def step (encoder : Encoder) (call : EncodeCall) (source : String) (input : Option Value)
    (base : Nat) (step : Step) : Encode Unit := do
  let layout ← encoder.fieldLayout source step.field
  let pos := base + layout.offset
  match step with
  | .fixedScalar field value =>
    let n ← encoder.valueOf value
    Encode.scalar pos layout.elementSize layout.scalar (some (.int n)) field
  | .fixedFill _ value =>
    let n ← encoder.valueOf value
    Encode.fill pos layout.size (byteAt (wordOf n) 0)
  | .assign field copy => encoder.assign call copy field (fieldOf input field) pos layout
  | .varLen field lengthField _ copy =>
    let count ← lengthOf input lengthField
    encoder.varLen call field count copy (fieldOf input field) pos layout
  | .union field record discriminator arms =>
    encoder.union call field record discriminator arms input pos layout

/-- All steps of a function.  A source value that is present has to be a record. -/
def runSteps (encoder : Encoder) (call : EncodeCall) : EncodeCall := fun function input base => do
  if input.all Value.isRecord then
    function.steps.forM (encoder.step call function.source input base)
  else Encode.fail (.typeMismatch function.source .record)

/-- Runs a function, with at most `fuel` calls in a chain. -/
def run (encoder : Encoder) : (fuel : Nat) → EncodeCall
  | 0 => fun _ _ _ => throw .endless
  | fuel + 1 => encoder.runSteps (encoder.run fuel)

/-- More calls than a chain that ends can have.  A call goes down in the source value;
once that is absent, calls repeat, and each round of them moves on in the buffer. -/
def callLimit (encoder : Encoder) (value : Value) (size : Nat) : Nat :=
  value.depth + encoder.program.encodeFunctions.length * (size + 2) + 2

/-- What encoding into a buffer of the given size starts from: the entry point, the size
of the packed type, and the encode function. -/
def prepare (encoder : Encoder) (root : String) (size : Nat) :
    Except Fault (EntryPoint × Nat × EncodeFunction) := do
  let entry ← encoder.entryPoint root
  let needed ← encoder.staticSize entry.source
  if size < needed then throw (.error (.bufferTooSmall needed size))
  return (entry, needed, ← encoder.encodeFunction entry.source)

/-- Encodes a value into a buffer, whose size is the room for the packed type and its
payload.  The payload follows the packed type, and what is not written stays.  The
result is the end of the written part, and the buffer as it was left. -/
def encodeInto (encoder : Encoder) (root : String) (value : Value) (buffer : Array UInt8) :
    Except Fault Nat × Array UInt8 :=
  match encoder.prepare root buffer.size with
  | .error fault => (.error fault, buffer)
  | .ok (entry, needed, function) =>
    let fuel := encoder.callLimit value buffer.size
    match encoder.run fuel function (some value) 0 ⟨buffer, min needed payloadLimit⟩ with
    | .error fault out => (.error fault, out.buffer)
    | .ok _ out =>
      (.ok (if entry.varLen then max out.cursor needed else needed), out.buffer)

/-- Allocates the encoded size of a value and encodes it.

An allocation of 2 ^ 63 bytes or more is outside of the model: no memory has that size, and
asking for it ends the program, where the definition here goes on.  A `maxAllocation` below
that bound, as the standard one is, keeps encoders within the model. -/
def encode (encoder : Encoder) (root : String) (value : Value) : Except Fault (Array UInt8) := do
  let size ← encoder.encodedSize root value
  if size > encoder.maxAllocation then throw (.error (.allocationFailed size))
  match encoder.encodeInto root value (Array.replicate size 0) with
  | (.ok _, bytes) => return bytes
  | (.error fault, _) => throw fault

end Encoder

end WireSchema
