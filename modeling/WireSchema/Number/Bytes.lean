/-!
# Little-endian bytes

`leBytes width word` is the low `width` bytes of a natural number, least
significant first.  A byte beyond the number's own digits is zero, so `width` may
be any size.
-/

namespace WireSchema

/-- The two's complement word of a 64-bit integer. -/
def wordOf (n : Int64) : Nat :=
  n.toUInt64.toNat

/-- Byte `i` of `word`, counted from the least significant. -/
def byteAt (word i : Nat) : UInt8 :=
  UInt8.ofNat (word >>> (8 * i))

/-- The low `width` bytes of `word`, least significant first. -/
def leBytes (width word : Nat) : List UInt8 :=
  (List.range width).map (byteAt word)

@[simp]
theorem leBytes_length (width word : Nat) : (leBytes width word).length = width := by
  simp [leBytes]

example : leBytes 4 0x0102 = [2, 1, 0, 0] := by decide

end WireSchema
