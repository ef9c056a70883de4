import Mathlib.Data.List.GetD
import WireSchema.Proofs.ScalarEncoding

/-!
# Numbers in a buffer

A receiver reads an integer as the word in its place, in two's complement if the type is
signed.  It finds the number that was written if the place can hold it.  A place that has
more bytes than a word gets the bytes of the word only, so it has to be zero before; and a
negative number would need more of them.

## Main results

* `naturalAt?_of_bytes`: words are read back.
* `Primitive.interpret?_wordOf`: numbers are read off their words.
* `Shown.number`: a scalar that was written is read back.
-/

namespace WireSchema

/-! ## Words -/

/-- The natural number in the `size` bytes from `pos` on, least significant first. -/
def naturalAt? (buffer : Array UInt8) : (pos size : Nat) → Option Nat
  | _, 0 => some 0
  | pos, size + 1 => do
    let low ← buffer[pos]?
    let high ← naturalAt? buffer (pos + 1) size
    return low.toNat + 256 * high

theorem naturalAt?_of_bytes {buffer : Array UInt8} {pos size word : Nat}
    (h : ∀ i < size, buffer[pos + i]? = some (byteAt word i)) :
    naturalAt? buffer pos size = some (word % 256 ^ size) := by
  induction size generalizing pos word with
  | zero => rw [naturalAt?, Nat.pow_zero, Nat.mod_one]
  | succ size ih =>
      have hLow : buffer[pos]? = some (UInt8.ofNat (word % 256)) := by
        rw [← byteAt_zero, ← h 0 (by omega), Nat.add_zero]
      have hHigh : naturalAt? buffer (pos + 1) size = some (word / 256 % 256 ^ size) := by
        refine ih fun i hi => ?_
        rw [← byteAt_succ, ← h (i + 1) (by omega)]
        congr 1
        omega
      rw [naturalAt?, hLow, hHigh, Nat.pow_succ', Nat.mod_mul]
      simp

/-- There are no bytes in a word beyond the eighth. -/
theorem byteAt_wordOf {i : Nat} (n : Int64) (hi : 8 ≤ i) : byteAt (wordOf n) i = 0 := by
  have hWord : wordOf n < 2 ^ 64 := n.toUInt64.toNat_lt
  have hPow : 2 ^ 64 ≤ 2 ^ (8 * i) := Nat.pow_le_pow_right (by decide) (by omega)
  rw [byteAt, Nat.shiftRight_eq_div_pow, Nat.div_eq_of_lt (by omega)]
  rfl

theorem wordOf_of_nonneg {n : Int64} (h : 0 ≤ n.toInt) : (wordOf n : Int) = n.toInt := by
  have hLt := n.toInt_lt
  have hWord := toNat_toInt_emod n (Nat.le_refl 8)
  have hSmall : wordOf n < 256 ^ 8 := n.toUInt64.toNat_lt
  rw [Nat.mod_eq_of_lt hSmall] at hWord
  omega

/-! ## Types of integers -/

/-- The number that a word stands for in a place of the type. -/
def Primitive.interpret? (primitive : Primitive) (word : Nat) : Option Int :=
  match primitive.scalar with
  | .unsigned | .bool => some word
  | .signed =>
    some (if 2 * word < 256 ^ primitive.size then word else word - 256 ^ primitive.size)
  | .float => none

/-- A place of the type can hold the integer.  What is written for it are the bytes of a word,
so a negative one must not need more. -/
def Primitive.CanHold (primitive : Primitive) (n : Int64) : Prop :=
  match primitive.scalar with
  | .unsigned => 0 ≤ n.toInt ∧ n.toInt < 256 ^ primitive.size
  | .signed =>
    -256 ^ primitive.size ≤ 2 * n.toInt ∧ 2 * n.toInt < 256 ^ primitive.size ∧
      (n.toInt < 0 → primitive.size ≤ 8)
  | .bool => (n.toInt = 0 ∨ n.toInt = 1) ∧ 0 < primitive.size
  | .float => False

theorem mod_wordOf_of_nonneg {n : Int64} {size : Nat} (hPos : 0 ≤ n.toInt)
    (hLt : n.toInt < 256 ^ size) : ((wordOf n % 256 ^ size : Nat) : Int) = n.toInt := by
  have hWord := wordOf_of_nonneg hPos
  have hCast : ((256 ^ size : Nat) : Int) = 256 ^ size := Int.natCast_pow 256 size
  rw [Nat.mod_eq_of_lt (by omega), hWord]

/-- Modulo the values of its place, a negative number is what it lacks to their number. -/
theorem mod_wordOf_of_neg {n : Int64} {size : Nat} (hSize : size ≤ 8) (hNeg : n.toInt < 0)
    (hLow : -256 ^ size ≤ n.toInt) :
    ((wordOf n % 256 ^ size : Nat) : Int) = n.toInt + 256 ^ size := by
  have hMod : n.toInt % 256 ^ size = n.toInt + 256 ^ size := by
    rw [← Int.add_emod_right, Int.emod_eq_of_lt (by omega) (by omega)]
  rw [← toNat_toInt_emod n hSize, hMod]
  omega

/-- An integer is read off its word. -/
theorem Primitive.interpret?_wordOf {primitive : Primitive} {n : Int64}
    (h : primitive.CanHold n) :
    primitive.interpret? (wordOf n % 256 ^ primitive.size) = some n.toInt := by
  obtain ⟨size, scalar⟩ := primitive
  have hCast : ((256 ^ size : Nat) : Int) = 256 ^ size := Int.natCast_pow 256 size
  cases scalar with
  | unsigned => exact congrArg some (mod_wordOf_of_nonneg h.1 h.2)
  | signed =>
      obtain ⟨hLow, hHigh, hWide⟩ := h
      dsimp only at hLow hHigh hWide
      refine congrArg some ?_
      dsimp only
      by_cases hPos : 0 ≤ n.toInt
      · have hWord := mod_wordOf_of_nonneg hPos (by omega : n.toInt < 256 ^ size)
        rw [if_pos (by omega), hWord]
      · have hWord := mod_wordOf_of_neg (hWide (by omega)) (by omega)
          (by omega : -256 ^ size ≤ n.toInt)
        rw [if_neg (by omega), hWord]
        omega
  | bool =>
      obtain ⟨hBit, hSize⟩ := h
      have hByte : 256 ≤ 256 ^ size := Nat.le_self_pow (Nat.pos_iff_ne_zero.1 hSize) 256
      exact congrArg some (mod_wordOf_of_nonneg (by omega) (by omega : n.toInt < 256 ^ size))
  | float => exact h.elim

/-! ## Scalars -/

/-- The `size` bytes from `pos` on are `bytes`, with zeros behind. -/
def Shown (buffer : Array UInt8) (pos size : Nat) (bytes : List UInt8) : Prop :=
  ∀ i < size, buffer[pos + i]? = some (bytes.getD i 0)

theorem getD_leBytes (width word i : Nat) :
    (leBytes width word).getD i 0 = if i < width then byteAt word i else 0 := by
  rw [List.getD_eq_getElem?_getD, leBytes, List.getElem?_map]
  by_cases hi : i < width
  · rw [List.getElem?_range hi, if_pos hi]
    rfl
  · rw [List.getElem?_eq_none (by rw [List.length_range]; omega), if_neg hi]
    rfl

/-- One bit in a byte, with zeros behind. -/
theorem getD_bit {n : Int64} (h : n.toInt = 0 ∨ n.toInt = 1) (width i : Nat) :
    ((if n = 0 then 0 else 1) :: List.replicate width (0 : UInt8)).getD i 0 =
      byteAt (wordOf n) i := by
  have hZero : ∀ k, byteAt 0 k = 0 := fun k => by rw [byteAt, Nat.zero_shiftRight]; rfl
  rcases h with hNone | hOne
  · obtain rfl : n = 0 := Int64.toInt_inj.1 hNone
    show _ = byteAt 0 i
    rw [if_pos rfl, hZero, ← List.replicate_succ, List.getD_eq_getElem?_getD,
      List.getElem?_getD_replicate_default_eq]
  · obtain rfl : n = 1 := Int64.toInt_inj.1 hOne
    show _ = byteAt 1 i
    rw [if_neg (by decide)]
    cases i with
    | zero => rfl
    | succ k =>
        rw [List.getD_cons_succ, List.getD_eq_getElem?_getD,
          List.getElem?_getD_replicate_default_eq, byteAt_succ]
        exact (hZero k).symm

/-- What is written for an integer are the bytes of its word. -/
theorem getD_scalarBytes {primitive : Primitive} {value : Option Value} {field : String}
    {bytes : List UInt8} {n : Int64}
    (hBytes : scalarBytes primitive.size (some primitive.scalar) value field = .ok bytes)
    (hValue : integerOf value field = .ok n) (hHolds : primitive.CanHold n) {i : Nat}
    (hi : i < primitive.size) : bytes.getD i 0 = byteAt (wordOf n) i := by
  obtain ⟨size, scalar⟩ := primitive
  have hInteger : leBytes (min size 8) (wordOf n) = bytes →
      bytes.getD i 0 = byteAt (wordOf n) i := by
    rintro rfl
    rw [getD_leBytes]
    by_cases hWord : i < 8
    · exact if_pos (by dsimp only at hi; omega)
    · rw [if_neg (by omega), byteAt_wordOf n (by omega)]
  cases scalar with
  | unsigned =>
      obtain ⟨m, hm, hPure⟩ := bind_eq_ok.1 hBytes
      cases hValue.symm.trans hm
      exact hInteger (pure_eq_ok.1 hPure)
  | signed =>
      obtain ⟨m, hm, hPure⟩ := bind_eq_ok.1 hBytes
      cases hValue.symm.trans hm
      exact hInteger (pure_eq_ok.1 hPure)
  | bool =>
      obtain ⟨m, hm, hRest⟩ := bind_eq_ok.1 hBytes
      cases hValue.symm.trans hm
      split at hRest
      · cases hRest
      · obtain rfl := pure_eq_ok.1 hRest
        exact getD_bit hHolds.1 _ i
  | float => exact hHolds.elim

/-- **Numbers are read back**: in a place of the type, if it can hold them. -/
theorem Shown.number {buffer : Array UInt8} {pos : Nat} {primitive : Primitive}
    {value : Option Value} {field : String} {bytes : List UInt8} {n : Int64}
    (h : Shown buffer pos primitive.size bytes)
    (hBytes : scalarBytes primitive.size (some primitive.scalar) value field = .ok bytes)
    (hValue : integerOf value field = .ok n) (hHolds : primitive.CanHold n) :
    (naturalAt? buffer pos primitive.size).bind primitive.interpret? = some n.toInt := by
  rw [naturalAt?_of_bytes fun i hi => ?_, Option.bind_some, Primitive.interpret?_wordOf hHolds]
  rw [h i hi, getD_scalarBytes hBytes hValue hHolds hi]

end WireSchema
