import WireSchema.Proofs.CheckedReadings
import WireSchema.Proofs.ScalarEncoding

/-!
# Integers in places of any width

A table of primitive types can give an integer type any number of bytes, and a source integer
has eight.  What is written for it are the bytes of its word, as many as its place has.  In a
place of up to eight bytes they are the number in two's complement, whatever was there before.
In a wider place the bytes behind the word are not written, though two's complement has the
sign there: zero bytes or `255`.  So a wider place holds the number only if the sign was there
already.

## Main definitions

* `Encoder.WritesScalar`: the work that writes a scalar to its place.
* `Output.HoldsInteger`: a place has the two's complement of a number.

## Main results

* `getElem?_twosComplement`: the bytes of a source integer in a place of any width.
* `Encode.integer_ok`: what writing an integer leaves in its place.
* `integers_held_iff`: all integers that an encoder writes.
-/

namespace WireSchema

/-! ## Two's complement -/

/-- The number in two's complement, least significant byte first. -/
def twosComplement (size : Nat) (n : Int) : List UInt8 :=
  littleEndian size (n % 256 ^ size).toNat

theorem twosComplement_succ (size : Nat) (n : Int) :
    twosComplement (size + 1) n = UInt8.ofNat (n % 256).toNat :: twosComplement size (n / 256) := by
  have hPow : (256 ^ (size + 1) : Int) = 256 * 256 ^ size := pow_succ' 256 size
  have hLow : n % (256 * 256 ^ size) % 256 = n % 256 := Int.emod_emod_of_dvd n ⟨_, rfl⟩
  have hHigh : n % (256 * 256 ^ size) / 256 = n / 256 % 256 ^ size := by
    rw [Int.emod_def, Int.mul_assoc, Int.sub_mul_ediv_left _ _ (by decide), Int.emod_def,
      Int.ediv_ediv_of_nonneg (by decide)]
  have hPos : (0 : Int) < 256 ^ size := pow_pos (by decide) size
  have hNonneg : 0 ≤ n % (256 * 256 ^ size) := Int.emod_nonneg _ (by omega)
  rw [twosComplement, twosComplement, littleEndian, hPow, ← hLow, ← hHigh]
  congr 2
  · omega
  · omega

/-- A byte of a number in two's complement. -/
theorem getElem?_twosComplement_eq {size i : Nat} (hi : i < size) (n : Int) :
    (twosComplement size n)[i]? = some (UInt8.ofNat (n / 256 ^ i % 256).toNat) := by
  induction size generalizing i n with
  | zero => cases hi
  | succ size ih =>
      rw [twosComplement_succ]
      cases i with
      | zero => simp
      | succ i =>
          rw [List.getElem?_cons_succ, ih (by omega), pow_succ',
            Int.ediv_ediv_of_nonneg (by decide)]

/-- The byte that stands for the sign of an integer, above all its digits. -/
def signByte (n : Int64) : UInt8 :=
  if n.toInt < 0 then 255 else 0

/-- The bytes of a source integer are those of its word, and then its sign. -/
theorem getElem?_twosComplement {size i : Nat} (hi : i < size) (n : Int64) :
    (twosComplement size n.toInt)[i]? =
      some (if i < 8 then byteAt (wordOf n) i else signByte n) := by
  by_cases hWord : i < 8
  · have hBytes : twosComplement 8 n.toInt = leBytes 8 (wordOf n) := by
      rw [twosComplement, toNat_toInt_emod n (Nat.le_refl 8), littleEndian_mod, leBytes_eq]
    rw [if_pos hWord, getElem?_twosComplement_eq hi, ← getElem?_twosComplement_eq hWord, hBytes,
      leBytes, List.getElem?_map, List.getElem?_range hWord]
    rfl
  · have hLow := n.le_toInt
    have hHigh := n.toInt_lt
    have hPow : (256 ^ 8 : Int) ≤ 256 ^ i := pow_le_pow_right₀ (by decide) (by omega)
    rw [if_neg hWord, getElem?_twosComplement_eq hi, signByte]
    by_cases hNeg : n.toInt < 0
    · rw [if_pos hNeg, Int.ediv_eq_neg_one_of_neg_of_le hNeg (by omega)]
      rfl
    · rw [if_neg hNeg, Int.ediv_eq_zero_of_lt (by omega) (by omega)]
      rfl

/-! ## Places -/

/-- The `size` bytes from `pos` on hold the number. -/
def Output.HoldsInteger (out : Output) (pos size : Nat) (n : Int) : Prop :=
  ∀ i < size, out.buffer[pos + i]? = (twosComplement size n)[i]?

/-- The place is for integers. -/
def FieldLayout.IsInteger (layout : FieldLayout) : Prop :=
  layout.scalar = some .unsigned ∨ layout.scalar = some .signed

/-- Writing an integer leaves the low eight bytes of the number in its place, and what was
there before behind them. -/
structure Output.Settles (before after : Output) (pos size : Nat) (n : Int64) : Prop where
  frame : Frame pos size false before after
  low : ∀ i < size, i < 8 → after.buffer[pos + i]? = (twosComplement size n.toInt)[i]?
  high : ∀ i < size, 8 ≤ i → after.buffer[pos + i]? = before.buffer[pos + i]?

/-- The place holds the number if, and only if, the sign was there behind the eight bytes. -/
theorem Output.Settles.holds_iff {before after : Output} {pos size : Nat} {n : Int64}
    (h : before.Settles after pos size n) :
    after.HoldsInteger pos size n.toInt ↔
      ∀ i < size, 8 ≤ i → before.buffer[pos + i]? = some (signByte n) := by
  have hSign : ∀ i < size, 8 ≤ i → (twosComplement size n.toInt)[i]? = some (signByte n) := by
    intro i hi hWide
    rw [getElem?_twosComplement hi, if_neg (by omega)]
  constructor
  · intro hHolds i hi hWide
    rw [← h.high i hi hWide, hHolds i hi, hSign i hi hWide]
  · intro hBefore i hi
    by_cases hWord : i < 8
    · exact h.low i hi hWord
    · rw [h.high i hi (by omega), hBefore i hi (by omega), hSign i hi (by omega)]

theorem scalarBytes_integer {layout : FieldLayout} (h : layout.IsInteger) {value : Option Value}
    {field : String} {n : Int64} (hValue : integerOf value field = .ok n) :
    scalarBytes layout.elementSize layout.scalar value field =
      .ok (leBytes (min layout.elementSize 8) (wordOf n)) := by
  have hBytes : (integerOf value field >>= fun n =>
      (pure (leBytes (min layout.elementSize 8) (wordOf n)) : Except Fault _)) =
        .ok (leBytes (min layout.elementSize 8) (wordOf n)) := by
    rw [hValue]
    rfl
  rcases h with hScalar | hScalar
  · rw [hScalar]
    exact hBytes
  · rw [hScalar]
    exact hBytes

/-- **One integer**: writing it succeeds wherever its place is inside the buffer. -/
theorem Encode.integer_ok {layout : FieldLayout} (h : layout.IsInteger) {value : Option Value}
    {field : String} {n : Int64} (hValue : integerOf value field = .ok n) {pos : Nat} {out : Output}
    (hRoom : pos + layout.elementSize ≤ out.buffer.size) :
    ∃ after, Encode.scalar pos layout.elementSize layout.scalar value field out = .ok () after ∧
      out.Settles after pos layout.elementSize n := by
  have hBytes := scalarBytes_integer h hValue
  have hLength : (leBytes (min layout.elementSize 8) (wordOf n)).length =
      min layout.elementSize 8 := leBytes_length _ _
  refine ⟨_, (Encode.scalar_ok hRoom).2 ⟨_, hBytes, rfl⟩, Frame.store out (by omega) hRoom, ?_, ?_⟩
  · intro i hi hWord
    dsimp only
    rw [getElem?_storeBytes _ _ _ _ (by omega), if_pos (by omega), Nat.add_sub_cancel_left,
      getElem?_twosComplement hi, if_pos hWord, leBytes, List.getElem?_map,
      List.getElem?_range (by omega)]
    rfl
  · intro i hi hWide
    dsimp only
    rw [getElem?_storeBytes _ _ _ _ (by omega), if_neg (by omega)]

/-! ## All integers that are written -/

namespace Encoder

/-- The work writes the value to the place at `pos`, which the layout describes.  It copies the
value, or the value is a constant. -/
inductive WritesScalar (encoder : Encoder) :
    Work → (pos : Nat) → FieldLayout → Option Value → (field : String) → Prop
  | copied {fuel pos : Nat} {field : String} {value : Option Value} {layout : FieldLayout} :
      WritesScalar encoder (.copy fuel .scalar field value pos layout) pos layout value field
  | constant {fuel base : Nat} {source field : String} {input : Option Value} {literal : Literal}
      {layout : FieldLayout} {n : Int64} :
      encoder.fieldLayout source field = .ok layout → encoder.valueOf literal = .ok n →
      WritesScalar encoder (.step fuel source input base (.fixedScalar field literal))
        (base + layout.offset) layout (some (.int n)) field

variable {encoder : Encoder} {work : Work} {pos : Nat} {layout : FieldLayout}
  {value : Option Value} {field : String}

theorem WritesScalar.perform_eq (h : encoder.WritesScalar work pos layout value field) :
    encoder.perform work = Encode.scalar pos layout.elementSize layout.scalar value field := by
  cases h with
  | copied => rfl
  | @constant fuel base source field input literal layout n hLayout hConstant =>
      show (liftM (encoder.fieldLayout source field) >>= _ : Encode Unit) = _
      rw [hLayout]
      show (liftM (encoder.valueOf literal) >>= _ : Encode Unit) = _
      rw [hConstant]
      rfl

/-- What has been written to a place for integers is an integer, and there was room for it. -/
theorem WritesScalar.exists_integer (h : encoder.WritesScalar work pos layout value field)
    (hInteger : layout.IsInteger) {out after : Output}
    (hOk : encoder.perform work out = .ok () after) :
    pos + layout.elementSize ≤ out.buffer.size ∧ ∃ n, integerOf value field = .ok n := by
  rw [h.perform_eq] at hOk
  obtain ⟨_, mid, hFirst, hRest⟩ := Encode.bind_ok.1 hOk
  refine ⟨(Encode.room_of_ensureRoom hFirst).1, ?_⟩
  obtain ⟨bytes, hBytes, _⟩ := Encode.lift_bind_ok.1 hRest
  rcases hInteger with hScalar | hScalar
  all_goals
    rw [hScalar] at hBytes
    obtain ⟨n, hValue, _⟩ := bind_eq_ok.1 hBytes
    exact ⟨n, hValue⟩

end Encoder

/-- **Integers in places of any width**: take any work of an encoder that writes a scalar to a
place for integers, whether it is a member, an element of an array or of payload, a member of a
union or a constant.

From every state with room for the place, and for every integer that the value stands for, the
writing succeeds.  It leaves all bytes outside the place as they were, stores the low eight
bytes of the number in two's complement, and leaves the bytes behind them.  So the place holds
the number exactly if the bytes behind the eighth had the sign before, which is no condition
in a place of up to eight bytes.

In a run that succeeds, every such work has room and a value that stands for an integer. -/
theorem integers_held_iff {encoder : Encoder} {work : Work} {pos : Nat} {layout : FieldLayout}
    {value : Option Value} {field : String}
    (hWrites : encoder.WritesScalar work pos layout value field) (hInteger : layout.IsInteger) :
    (∀ n out, integerOf value field = .ok n → pos + layout.elementSize ≤ out.buffer.size →
      ∃ after, encoder.perform work out = .ok () after ∧
        out.Settles after pos layout.elementSize n ∧
        (after.HoldsInteger pos layout.elementSize n.toInt ↔
          ∀ i < layout.elementSize, 8 ≤ i → out.buffer[pos + i]? = some (signByte n))) ∧
    ∀ root given buffer stop, (encoder.encodeInto root given buffer).1 = .ok stop →
      ∀ out, encoder.Reached root given buffer (work, out) →
        pos + layout.elementSize ≤ out.buffer.size ∧ ∃ n, integerOf value field = .ok n := by
  constructor
  · intro n out hValue hRoom
    obtain ⟨after, hOk, hSettles⟩ := Encode.integer_ok hInteger hValue hRoom
    rw [hWrites.perform_eq]
    exact ⟨after, hOk, hSettles, hSettles.holds_iff⟩
  · intro root given buffer stop hOk out hReached
    obtain ⟨after, hPerformed⟩ := hReached.exists_ok hOk
    exact hWrites.exists_integer hInteger hPerformed

namespace Sample

/-- A number of 16 bytes. -/
def wide : Declarations :=
  Table.ofList [("chreTestBatch", ⟨.struct, [⟨"number", ⟨"int128_t", .plain⟩⟩]⟩)]

def widePrimitives : Primitives := Primitives.standard.insertAll [("int128_t", ⟨16, .signed⟩)]

def wideProgram : Program := (compileWithin 20 wide ⟨[]⟩ {} request).getD default

def wideEncoder : Encoder :=
  ⟨wideProgram, (Layouts.ofProgram widePrimitives wideProgram).toOption.getD Table.empty,
    Table.empty, payloadLimit⟩

/-- The place of the number. -/
def widePlace : FieldLayout := ⟨0, 16, 16, 1, some .signed⟩

/-- Where all bytes are `255`, minus one can be stored. -/
theorem minus_one_held :
    ∃ after,
      wideEncoder.perform (.copy 1 .scalar "number" (some (.int (-1))) 0 widePlace)
        ⟨Array.replicate 16 255, 16⟩ = .ok () after ∧ after.HoldsInteger 0 16 (-1) := by
  have hWrites : wideEncoder.WritesScalar
      (.copy 1 .scalar "number" (some (.int (-1))) 0 widePlace) 0 widePlace (some (.int (-1)))
      "number" := .copied
  obtain ⟨after, hOk, _, hIff⟩ :=
    (integers_held_iff hWrites (.inr rfl)).1 (-1) ⟨Array.replicate 16 255, 16⟩ rfl (by decide)
  refine ⟨after, hOk, hIff.2 fun i hi _ => ?_⟩
  show (Array.replicate 16 (255 : UInt8))[0 + i]? = some 255
  have hi : i < 16 := hi
  rw [Array.getElem?_replicate, if_pos (by omega)]

/-- Where all bytes are `255`, one is not held once it is stored, and neither is minus one where
all bytes are zero. -/
theorem wide_slot_keeps_old_bytes :
    compile wide ⟨[]⟩ {} request = .ok wideEncoder.program ∧
      wideEncoder.IsFor wideProgram widePrimitives ∧
      wideEncoder.fieldLayout "chreTestBatch" "number" = .ok widePlace ∧
      wideEncoder.encodeInto "chreTestBatch" (.record [("number", .int 1)])
          (Array.replicate 16 255) =
        (.ok 16, #[1, 0, 0, 0, 0, 0, 0, 0, 255, 255, 255, 255, 255, 255, 255, 255]) ∧
      ¬ (⟨#[1, 0, 0, 0, 0, 0, 0, 0, 255, 255, 255, 255, 255, 255, 255, 255], 16⟩ :
          Output).HoldsInteger 0 16 1 ∧
      wideEncoder.encode "chreTestBatch" (.record [("number", .int (-1))]) =
        .ok #[255, 255, 255, 255, 255, 255, 255, 255, 0, 0, 0, 0, 0, 0, 0, 0] ∧
      ¬ (⟨#[255, 255, 255, 255, 255, 255, 255, 255, 0, 0, 0, 0, 0, 0, 0, 0], 16⟩ :
          Output).HoldsInteger 0 16 (-1) := by
  refine ⟨compile_getD (by decide +kernel),
    Encoder.isFor_of_layouts (eq_ok_getD (by decide +kernel)),
    eq_ok_of_toOption (by decide +kernel), ?_, fun hHolds => ?_,
    eq_ok_of_toOption (by decide +kernel), fun hHolds => ?_⟩
  · exact Prod.ext (eq_ok_of_toOption (by decide +kernel)) (by decide +kernel)
  · exact absurd (hHolds 8 (by decide)) (by decide)
  · exact absurd (hHolds 8 (by decide)) (by decide)

end Sample

end WireSchema
