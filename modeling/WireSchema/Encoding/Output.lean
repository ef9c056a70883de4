import WireSchema.Encoding.Fault
import WireSchema.Number.Bytes

/-!
# The output of an encode run

A run writes into a buffer that its caller gave it, and moves a cursor through the part
of the buffer that takes payload.  Both are its state; a fault leaves the state as it
was then, so that a caller can see what has been written.

Every write first looks for room: `Encode.ensureRoom` is where a place beyond the end of
the buffer becomes a fault.  `store` and `fill` then change exactly that place.
-/

namespace WireSchema

/-- The bytes of `buffer` with those from `pos` on replaced by `bytes`. -/
def storeBytes (buffer : Array UInt8) (pos : Nat) : List UInt8 → Array UInt8
  | [] => buffer
  | byte :: rest => storeBytes (buffer.setIfInBounds pos byte) (pos + 1) rest

@[simp]
theorem size_storeBytes (bytes : List UInt8) (buffer : Array UInt8) (pos : Nat) :
    (storeBytes buffer pos bytes).size = buffer.size := by
  induction bytes generalizing buffer pos with
  | nil => rfl
  | cons byte rest ih => simp [storeBytes, ih]

/-- The buffer, and where the next payload goes. -/
structure Output where
  buffer : Array UInt8
  cursor : Nat

/-- A run that writes output and may end in a fault. -/
abbrev Encode := EStateM Fault Output

instance : MonadLift (Except Fault) Encode where
  monadLift
    | .ok value => pure value
    | .error fault => throw fault

namespace Encode

/-- Ends the run with an error. -/
def fail {α : Type} (cause : EncodeError) : Encode α :=
  throw (.error cause)

/-- Makes sure that the buffer has the `size` bytes from `pos` on. -/
def ensureRoom (pos size : Nat) : Encode Unit := do
  if pos + size ≤ (← get).buffer.size then pure () else throw .outOfBounds

/-- Writes `bytes` from `pos` on. -/
def store (pos : Nat) (bytes : List UInt8) : Encode Unit :=
  modify fun out => { out with buffer := storeBytes out.buffer pos bytes }

/-- Writes `size` copies of `byte` from `pos` on. -/
def fill (pos size : Nat) (byte : UInt8) : Encode Unit := do
  ensureRoom pos size
  store pos (List.replicate size byte)

/-- Writes a number of two bytes at `pos`. -/
def storeUInt16 (pos value : Nat) : Encode Unit := do
  ensureRoom pos 2
  store pos (leBytes 2 value)

/-- Writes a descriptor at `pos`: an offset, then a length. -/
def storeDescriptor (pos offset length : Nat) : Encode Unit := do
  storeUInt16 pos offset
  storeUInt16 (pos + 2) length

/-- Moves the cursor past `length` bytes of payload. -/
def advance (length : Nat) : Encode Unit :=
  modify fun out => { out with cursor := out.cursor + length }

end Encode

end WireSchema
