import WireSchema.Encoding.Scalar
import WireSchema.Packing.Layout

/-!
# Encoders

An encoder is a program that is ready to run: its layouts are computed, symbols have
values, and the size of an allocation is limited.  The look-ups here fail with the name
of what the program lacks.
-/

namespace WireSchema

/-- The greatest offset and length that a descriptor can hold, and so the end of the
part of a buffer that can take payload. -/
def payloadLimit : Nat := 65535

/-- A program that is ready to run. -/
structure Encoder where
  program : Program
  layouts : Layouts
  /-- The values of symbols. -/
  constants : Table Int64
  /-- The greatest size that can be allocated, meant to be below 2 ^ 63. -/
  maxAllocation : Nat

namespace Encoder

/-- The encoder of a program, without constants and with the limit that fits payload
offsets. -/
def ofProgram (program : Program) (primitives : Primitives) : Except LayoutError Encoder := do
  return ⟨program, ← Layouts.ofProgram primitives program, Table.empty, payloadLimit⟩

/-- The encoder with more constants; the last value of a symbol counts. -/
def withConstants (encoder : Encoder) (constants : List (String × Int64)) : Encoder :=
  { encoder with constants := encoder.constants.insertAll constants }

/-- The encoder with another limit on allocations. -/
def withMaxAllocation (encoder : Encoder) (size : Nat) : Encoder :=
  { encoder with maxAllocation := size }

/-- The entry point of a root. -/
def entryPoint (encoder : Encoder) (root : String) : Except Fault EntryPoint :=
  match encoder.program.entryPoint? root with
  | some entry => .ok entry
  | none => .error (.error (.unknownRoot root))

/-- The encode function of a source type. -/
def encodeFunction (encoder : Encoder) (source : String) : Except Fault EncodeFunction :=
  match encoder.program.encodeFunction? source with
  | some function => .ok function
  | none => .error (.error (.missingDefinition source))

/-- The layout of a source type. -/
def typeLayout (encoder : Encoder) (source : String) : Except Fault TypeLayout :=
  match encoder.layouts.get? source with
  | some layout => .ok layout
  | none => .error (.error (.missingDefinition source))

/-- The place of a member. -/
def fieldLayout (encoder : Encoder) (source field : String) : Except Fault FieldLayout := do
  match (← encoder.typeLayout source).fields.get? field with
  | some layout => return layout
  | none => throw (.error (.missingDefinition (source ++ "." ++ field)))

/-- The size of the packed type. -/
def staticSize (encoder : Encoder) (source : String) : Except Fault Nat := do
  return (← encoder.typeLayout source).size

/-- The value of a constant. -/
def valueOf (encoder : Encoder) : Literal → Except Fault Int64
  | .int value => .ok value
  | .symbol name =>
    match encoder.constants.get? name with
    | some value => .ok value
    | none => .error (.error (.unknownConstant name))

end Encoder

end WireSchema
