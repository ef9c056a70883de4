import Mathlib.Data.Int.ModEq
import WireSchema.Proofs.Outcome
import WireSchema.Proofs.ReferenceEncoding

/-!
# Bytes of scalars

What is written for a scalar, one shifted byte after another, is its little-endian
representation in two's complement, as long as its type has no more bytes than a word.

## Main results

* `leBytes_eq`: shifted bytes are little-endian.
* `scalarBytes_ok`: the bytes written for a scalar are those of the reference.
-/

namespace WireSchema

/-! ## Numbers -/

theorem length_littleEndian (width n : Nat) : (littleEndian width n).length = width := by
  induction width generalizing n with
  | zero => rfl
  | succ width ih => rw [littleEndian, List.length_cons, ih]

theorem byteAt_succ (n i : Nat) : byteAt n (i + 1) = byteAt (n / 256) i := by
  rw [byteAt, byteAt, Nat.mul_succ, Nat.add_comm, Nat.shiftRight_add,
    Nat.shiftRight_eq_div_pow n 8]

theorem byteAt_zero (n : Nat) : byteAt n 0 = UInt8.ofNat (n % 256) := by
  rw [byteAt, Nat.mul_zero, Nat.shiftRight_zero, ← UInt8.toNat_inj]
  simp

theorem leBytes_eq (width n : Nat) : leBytes width n = littleEndian width n := by
  induction width generalizing n with
  | zero => rfl
  | succ width ih =>
      rw [leBytes, List.range_succ_eq_map, List.map_cons, List.map_map, littleEndian,
        ← ih (n / 256), byteAt_zero]
      exact congrArg _ (List.map_congr_left fun i _ => byteAt_succ n i)

/-- Only the low bytes of a number matter. -/
theorem littleEndian_mod (width n : Nat) :
    littleEndian width (n % 256 ^ width) = littleEndian width n := by
  induction width generalizing n with
  | zero => rfl
  | succ width ih =>
      rw [littleEndian, littleEndian, Nat.pow_succ', Nat.mod_mul_right_div_self, ih,
        Nat.mod_mul_right_mod]

theorem littleEndian_zero (width : Nat) : littleEndian width 0 = List.replicate width 0 := by
  induction width with
  | zero => rfl
  | succ width ih =>
      rw [littleEndian, Nat.zero_div, ih]
      rfl

/-- The word of an integer is its two's complement, and so are the low bytes of it. -/
theorem toNat_toInt_emod (n : Int64) {width : Nat} (hWidth : width ≤ 8) :
    (n.toInt % 256 ^ width).toNat = wordOf n % 256 ^ width := by
  have hDvd : (256 ^ width : Int) ∣ ((2 ^ 64 : Nat) : Int) := by
    refine ⟨256 ^ (8 - width), ?_⟩
    rw [← pow_add, Nat.add_sub_cancel' hWidth]
    rfl
  have hWord : n.toInt % 256 ^ width = (wordOf n : Int) % 256 ^ width := by
    rw [← Int.emod_emod_of_dvd n.toInt hDvd, ← Int.emod_emod_of_dvd (wordOf n : Int) hDvd]
    congr 1
    show n.toBitVec.toInt % _ = _
    rw [BitVec.toInt_eq_toNat_bmod, Int.bmod_emod]
    rfl
  rw [hWord]
  norm_cast

/-! ## Scalars -/

/-- No integer has more bytes than a word. -/
def Primitives.WordSized (primitives : Primitives) : Prop :=
  ∀ name primitive, primitives.get? name = some primitive →
    primitive.scalar = .unsigned ∨ primitive.scalar = .signed → primitive.size ≤ 8

theorem Primitives.WordSized.resolve {primitives : Primitives} (h : primitives.WordSized)
    {spec : String} {primitive : Primitive} (hResolve : primitives.resolve? spec = some primitive)
    (hInteger : primitive.scalar = .unsigned ∨ primitive.scalar = .signed) :
    primitive.size ≤ 8 := by
  unfold Primitives.resolve? at hResolve
  dsimp only at hResolve
  split at hResolve
  · cases hResolve
    decide
  · exact h _ _ hResolve hInteger

theorem Primitives.WordSized.insertAll {primitives : Primitives} (h : primitives.WordSized)
    {more : List (String × Primitive)} (hMore : ∀ entry ∈ more, entry.2.size ≤ 8) :
    Primitives.WordSized (primitives.insertAll more) := by
  induction more generalizing primitives with
  | nil => exact h
  | cons entry more ih =>
      refine ih ?_ fun other hOther => hMore other (List.mem_cons_of_mem _ hOther)
      intro name primitive hGet hInteger
      rw [Table.get?_insert] at hGet
      split at hGet
      · cases hGet
        exact hMore entry List.mem_cons_self
      · exact h name primitive hGet hInteger

theorem Primitives.standard_wordSized : Primitives.standard.WordSized := by
  unfold Primitives.standard Table.ofList
  refine Primitives.WordSized.insertAll ?_ (by decide)
  intro name primitive hGet
  cases hGet

theorem integer?_of_integerOf {value : Option Value} {field : String} {n : Int64}
    (h : integerOf value field = .ok n) : Reference.integer? value = some n := by
  unfold integerOf at h
  unfold Reference.integer?
  split at h
  · cases h
    rfl
  · split at h
    · rename_i hSome
      cases h
      exact hSome
    · cases h

theorem float?_of_floatOf {value : Option Value} {field : String} {x : Binary64}
    (h : floatOf value field = .ok x) : Reference.float? value = some x := by
  unfold floatOf at h
  unfold Reference.float?
  split at h
  · cases h
    rfl
  · split at h
    · rename_i hSome
      cases h
      exact hSome
    · cases h

theorem length?_of_lengthOf {value : Option Value} {lengthField : String} {count : Nat}
    (h : lengthOf value lengthField = .ok count) :
    Reference.length? value lengthField = some count := by
  obtain ⟨n, hInteger, h⟩ := bind_eq_ok.1 h
  unfold Reference.length?
  rw [integer?_of_integerOf hInteger]
  dsimp only [Option.bind_eq_bind, Option.bind_some]
  split at h
  · cases h
  · rename_i hNonneg
    rw [if_neg hNonneg, pure_eq_ok.1 h]

/-- An integer has the low bytes of its word. -/
theorem leBytes_wordOf (n : Int64) {size : Nat} (hSize : size ≤ 8) :
    leBytes (min size 8) (wordOf n) = littleEndian size (n.toInt % 256 ^ size).toNat := by
  rw [Nat.min_eq_left hSize, toNat_toInt_emod n hSize, littleEndian_mod, leBytes_eq]

/-- A truth value has a byte of its own, and zeros behind. -/
theorem truthBytes_eq (n : Int64) {size : Nat} (hSize : size ≠ 0) :
    ((if n = 0 then 0 else 1) :: List.replicate (size - 1) 0 : List UInt8) =
      littleEndian size (if n = 0 then 0 else 1) := by
  obtain ⟨size, rfl⟩ : ∃ k, size = k + 1 := ⟨size - 1, by omega⟩
  by_cases hZero : n = 0
  · rw [if_pos hZero, if_pos hZero, littleEndian_zero]
    rfl
  · rw [if_neg hZero, if_neg hZero, littleEndian, Nat.div_eq_of_lt (by decide), littleEndian_zero]
    rfl

theorem length_of_scalarBytes? {primitive : Primitive} {value : Option Value} {bytes : List UInt8}
    (h : Reference.scalarBytes? primitive value = some bytes) : bytes.length = primitive.size := by
  unfold Reference.scalarBytes? at h
  split at h
  case h_4 =>
      obtain ⟨x, _, h⟩ := Option.bind_eq_some_iff.1 h
      split at h
      · rename_i hFour
        obtain rfl := Option.some.inj h
        rw [length_littleEndian, hFour]
      · split at h
        · rename_i hEight
          obtain rfl := Option.some.inj h
          rw [length_littleEndian, hEight]
        · cases h
  all_goals
    obtain ⟨n, _, h⟩ := Option.bind_eq_some_iff.1 h
    obtain rfl := Option.some.inj h
    exact length_littleEndian _ _

/-- What is written for a scalar are its bytes, and they fill its place. -/
theorem scalarBytes_ok {primitive : Primitive} {value : Option Value} {field : String}
    {bytes : List UInt8}
    (hWord : primitive.scalar = .unsigned ∨ primitive.scalar = .signed → primitive.size ≤ 8)
    (hBytes : scalarBytes primitive.size (some primitive.scalar) value field = .ok bytes) :
    Reference.scalarBytes? primitive value = some bytes ∧ bytes.length = primitive.size := by
  suffices h : Reference.scalarBytes? primitive value = some bytes from
    ⟨h, length_of_scalarBytes? h⟩
  obtain ⟨size, scalar⟩ := primitive
  unfold Reference.scalarBytes?
  cases scalar with
  | unsigned =>
      obtain ⟨n, hValue, h⟩ := bind_eq_ok.1 hBytes
      rw [integer?_of_integerOf hValue, ← pure_eq_ok.1 h]
      exact congrArg some (leBytes_wordOf n (hWord (.inl rfl))).symm
  | signed =>
      obtain ⟨n, hValue, h⟩ := bind_eq_ok.1 hBytes
      rw [integer?_of_integerOf hValue, ← pure_eq_ok.1 h]
      exact congrArg some (leBytes_wordOf n (hWord (.inr rfl))).symm
  | bool =>
      obtain ⟨n, hValue, h⟩ := bind_eq_ok.1 hBytes
      rw [integer?_of_integerOf hValue]
      split at h
      · cases h
      · rename_i hSize
        rw [← pure_eq_ok.1 h]
        exact congrArg some (truthBytes_eq n hSize).symm
  | float =>
      obtain ⟨x, hValue, h⟩ := bind_eq_ok.1 hBytes
      rw [float?_of_floatOf hValue]
      dsimp only [Option.bind_eq_bind, Option.bind_some]
      split at h
      · rename_i hFour
        rw [if_pos hFour, ← pure_eq_ok.1 h, leBytes_eq]
        rfl
      · rename_i hFour
        split at h
        · rename_i hEight
          rw [if_neg hFour, if_pos hEight, ← pure_eq_ok.1 h, leBytes_eq]
          rfl
        · cases h

end WireSchema
