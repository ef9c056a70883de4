import WireSchema.Encoding.Encoder

/-!
# Encoded sizes

How many bytes an entry point allocates.  A root of fixed size takes the size of its
packed type; a variable-length root takes what its size function computes from the
source value.  Sizes stop growing at `sizeLimit`.

Size functions call each other.  A call follows a nested field of the source value, and
once that is absent it depends on the type alone, so more calls in a chain than the
depth of the value and the number of size functions allow never end.
-/

namespace WireSchema

/-- The greatest size. -/
def sizeLimit : Nat := 0xFFFFFFFFFFFFFFFF

/-- The sum of two sizes, at most `sizeLimit`. -/
def addSizes (a b : Nat) : Nat :=
  min (a + b) sizeLimit

/-- The size of `count` elements, at most `sizeLimit`. -/
def sizeOfElements (count elementSize : Nat) : Nat :=
  min (count * elementSize) sizeLimit

namespace Encoder

/-- What a term adds, where `call` computes the encoded size of a nested type. -/
def termSize (encoder : Encoder) (call : String → Option Value → Except Fault Nat)
    (source : String) (value : Option Value) : SizeTerm → Except Fault Nat
  | .varLen field lengthField _ => do
    let layout ← encoder.fieldLayout source field
    let count ← lengthOf value lengthField
    return sizeOfElements count layout.elementSize
  | .nested field nested _ _ => do
    let total ← call nested (fieldOf value field)
    return total - (← encoder.staticSize nested)

/-- The size after adding what `terms` add. -/
def addTerms (encoder : Encoder) (call : String → Option Value → Except Fault Nat)
    (source : String) (value : Option Value) (size : Nat) : List SizeTerm → Except Fault Nat
  | [] => .ok size
  | term :: rest => do
    let more ← encoder.termSize call source value term
    encoder.addTerms call source value (addSizes size more) rest

/-- The encoded size of a value of a source type, with at most `fuel` calls in a chain. -/
def dynamicSize (encoder : Encoder) : (fuel : Nat) → String → Option Value → Except Fault Nat
  | 0, _, _ => .error .endless
  | fuel + 1, source, value => do
    let size ← encoder.staticSize source
    match encoder.program.sizeFunction? source with
    | none => return size
    | some function => encoder.addTerms (encoder.dynamicSize fuel) source value size function.terms

/-- The bytes that the entry point of `root` allocates for a value. -/
def encodedSize (encoder : Encoder) (root : String) (value : Value) : Except Fault Nat := do
  let entry ← encoder.entryPoint root
  match entry.size with
  | .static => encoder.staticSize entry.source
  | .dynamic _ =>
    let fuel := value.depth + encoder.program.sizeFunctions.length + 2
    encoder.dynamicSize fuel entry.source (some value)

end Encoder

end WireSchema
