import WireSchema.Proofs.StillCursor
import WireSchema.Proofs.UnreadMembers

/-!
# Payload in larger buffers

Which arrays a run comes to, and how long they are, depends on the source value only.  The
buffer decides which of them are stored: each is that fits behind what is stored already.  So
a larger buffer can take in an early array, and then be too full for arrays that the smaller
one has stored behind it.

`Encode.Packs` says that a run goes through arrays of given lengths in this way, in whatever
buffer.  What is left to show is about lists of lengths.  As long as two cursors are the same,
the one with more room takes in what the other takes in.  They part where only more room is
enough, and then the cursor in more room is beyond the end of less room, where the other never
gets.

## Main results

* `Ahead.packed`, `Ahead.foldl_packed`: one array and many, in less and in more room.
* `Compiled.packs_run`: runs of a compiled program pack arrays.
* `larger_buffer_carries_no_less`: the end of an encoding, in two buffers.
-/

namespace WireSchema

/-! ## Packing -/

/-- The cursor after an array of `length` bytes, which is left out if it would end beyond
`room`. -/
def packed (room cursor length : Nat) : Nat :=
  if cursor + length ≤ room then cursor + length else cursor

theorem le_packed (room cursor length : Nat) : cursor ≤ packed room cursor length := by
  unfold packed
  split <;> omega

theorem packed_le {room cursor : Nat} (h : cursor ≤ room) (length : Nat) :
    packed room cursor length ≤ room := by
  unfold packed
  split <;> omega

theorem foldl_packed_le {room cursor : Nat} (h : cursor ≤ room) (lengths : List Nat) :
    lengths.foldl (packed room) cursor ≤ room := by
  induction lengths generalizing cursor with
  | nil => exact h
  | cons length rest ih => exact ih (packed_le h length)

/-- Of two cursors, `farther` is the other one, or it is beyond the room of the other one. -/
def Ahead (room cursor farther : Nat) : Prop :=
  farther = cursor ∨ room < farther

/-- One array keeps a cursor in more room ahead. -/
theorem Ahead.packed {room more cursor farther : Nat} (h : Ahead room cursor farther)
    (hRoom : room ≤ more) (length : Nat) :
    Ahead room (packed room cursor length) (packed more farther length) := by
  rcases h with rfl | hBeyond
  · unfold WireSchema.packed
    by_cases hLess : farther + length ≤ room
    · rw [if_pos hLess, if_pos (by omega)]
      exact .inl rfl
    · rw [if_neg hLess]
      split
      · exact .inr (by omega)
      · exact .inl rfl
  · have hGrows := le_packed more farther length
    exact .inr (by omega)

/-- So do any number of arrays. -/
theorem Ahead.foldl_packed {room more cursor farther : Nat} (h : Ahead room cursor farther)
    (hRoom : room ≤ more) (lengths : List Nat) :
    Ahead room (lengths.foldl (WireSchema.packed room) cursor)
      (lengths.foldl (WireSchema.packed more) farther) := by
  induction lengths generalizing cursor farther with
  | nil => exact h
  | cons length rest ih => exact ih (h.packed hRoom length)

/-! ## Runs -/

/-- Where payload ends at the latest. -/
def Output.room (out : Output) : Nat :=
  min out.buffer.size payloadLimit

namespace Encode

/-- A run that succeeds comes to arrays of these lengths, one after another, and does not
change the size of the buffer. -/
def Packs (m : Encode Unit) (lengths : List Nat) : Prop :=
  ∀ out after, m out = .ok () after →
    after.buffer.size = out.buffer.size ∧
      after.cursor = lengths.foldl (packed out.room) out.cursor

namespace Packs

theorem pure : Packs (pure ()) [] := by
  intro out after h
  cases h
  exact ⟨rfl, rfl⟩

theorem throw (fault : Fault) (lengths : List Nat) : Packs (throw fault) lengths := by
  intro out after h
  cases h

theorem bind {m : Encode Unit} {k : Unit → Encode Unit} {lengths more : List Nat}
    (h : Packs m lengths) (hk : Packs (k ()) more) : Packs (m >>= k) (lengths ++ more) := by
  intro out after hRun
  obtain ⟨_, mid, hFirst, hSecond⟩ := bind_ok.1 hRun
  obtain ⟨hSize, hCursor⟩ := h out mid hFirst
  obtain ⟨hSize', hCursor'⟩ := hk mid after hSecond
  have hRoom : mid.room = out.room := by rw [Output.room, Output.room, hSize]
  refine ⟨hSize'.trans hSize, ?_⟩
  rw [hCursor', hCursor, hRoom, List.foldl_append]

/-- What is looked up does not depend on the buffer, so neither do the arrays behind it. -/
theorem lift_bind {α : Type} {x : Except Fault α} {k : α → Encode Unit}
    (h : ∀ a, x = .ok a → ∃ lengths, Packs (k a) lengths) :
    ∃ lengths, Packs (liftM x >>= k) lengths := by
  cases x with
  | error fault => exact ⟨[], throw fault []⟩
  | ok a => exact h a rfl

theorem forM {α : Type} {f : α → Encode Unit} {l : List α}
    (h : ∀ x ∈ l, ∃ lengths, Packs (f x) lengths) : ∃ lengths, Packs (l.forM f) lengths := by
  induction l with
  | nil => exact ⟨[], pure⟩
  | cons x rest ih =>
      obtain ⟨lengths, hFirst⟩ := h x List.mem_cons_self
      obtain ⟨more, hRest⟩ := ih fun y hy => h y (List.mem_cons_of_mem _ hy)
      exact ⟨lengths ++ more, hFirst.bind hRest⟩

theorem elements {element : Option Value → Nat → Encode Unit}
    (h : ∀ item pos, ∃ lengths, Packs (element item pos) lengths) (size count : Nat)
    (items : List Value) (pos : Nat) :
    ∃ lengths, Packs (Encode.elements element size count items pos) lengths := by
  induction count generalizing items pos with
  | zero => exact ⟨[], pure⟩
  | succ count ih =>
      obtain ⟨lengths, hFirst⟩ := h items.head? pos
      obtain ⟨more, hRest⟩ := ih items.tail (pos + size)
      exact ⟨lengths ++ more, hFirst.bind hRest⟩

end Packs

/-! ## Writes -/

/-- Writes come to no array. -/
theorem packs_write (pos size : Nat) (bytes : List UInt8) :
    Packs (do ensureRoom pos size; store pos bytes) [] := by
  intro out after h
  obtain ⟨_, mid, hRoom, hStore⟩ := bind_ok.1 h
  obtain ⟨_, rfl⟩ := room_of_ensureRoom hRoom
  cases hStore
  exact ⟨size_storeBytes bytes out.buffer pos, rfl⟩

theorem packs_fill (pos size : Nat) (byte : UInt8) : Packs (fill pos size byte) [] :=
  packs_write pos size _

theorem packs_storeDescriptor (pos offset length : Nat) :
    Packs (storeDescriptor pos offset length) [] :=
  (packs_write pos 2 _).bind (packs_write (pos + 2) 2 _)

theorem packs_scalar (pos size : Nat) (slot : Option ScalarClass) (value : Option Value)
    (field : String) : Packs (scalar pos size slot value field) [] := by
  intro out after h
  obtain ⟨_, mid, hFirst, _⟩ := bind_ok.1 h
  have hRoom := (room_of_ensureRoom hFirst).1
  obtain ⟨bytes, _, rfl⟩ := (scalar_ok hRoom).1 h
  exact ⟨size_storeBytes bytes out.buffer pos, rfl⟩

end Encode

/-! ## Steps -/

namespace Encoder

variable {encoder : Encoder} {call : EncodeCall}

/-- The function that a copy calls packs arrays. -/
def CallsPack (encoder : Encoder) (call : EncodeCall) (copy : Copy) : Prop :=
  ∀ source, copy.callee? = some source → ∀ function, encoder.encodeFunction source = .ok function →
    ∀ value pos, ∃ lengths, (call function value pos).Packs lengths

theorem packs_assign {copy : Copy} (h : encoder.CallsPack call copy) (field : String)
    (value : Option Value) (pos : Nat) (layout : FieldLayout) :
    ∃ lengths, (encoder.assign call copy field value pos layout).Packs lengths := by
  cases copy with
  | scalar => exact ⟨[], Encode.packs_scalar _ _ _ _ _⟩
  | array length =>
      exact Encode.Packs.elements (fun _ _ => ⟨[], Encode.packs_scalar _ _ _ _ _⟩) _ _ _ _
  | record source function varLen =>
      exact Encode.Packs.lift_bind fun callee hCallee => h source rfl callee hCallee value pos
  | recordArray source function length =>
      refine Encode.Packs.lift_bind fun callee hCallee => ?_
      exact Encode.Packs.elements (h source rfl callee hCallee) _ _ _ _

/-- A variable-length array is one array: its elements come to no other. -/
theorem packs_varLen {copy : Copy} (h : encoder.CallsPack call copy) {field : String} {count : Nat}
    {items : Option Value} {layout : FieldLayout}
    (hStill : ∀ start, (encoder.elementCopies call field count copy items start layout).Still)
    (pos : Nat) :
    (encoder.varLen call field count copy items pos layout).Packs
      [count * layout.elementSize] := by
  intro out after hRun
  show _ ∧ after.cursor = packed out.room out.cursor (count * layout.elementSize)
  cases hReserve : reservation? count layout.elementSize out.cursor out.buffer.size with
  | none =>
      have hNot := reservation?_eq_none hReserve
      rw [varLen_of_none hReserve] at hRun
      obtain ⟨hSize, hCursor⟩ := Encode.packs_storeDescriptor pos 0 0 out after hRun
      refine ⟨hSize, hCursor.trans ?_⟩
      show out.cursor = _
      unfold packed Output.room
      split
      · omega
      · rfl
  | some length =>
      obtain ⟨rfl, _, hFits⟩ := reservation?_eq_some hReserve
      rw [varLen_of_some hReserve (room_of_varLen hReserve hRun)] at hRun
      obtain ⟨lengths, hCopies⟩ : ∃ lengths,
          (encoder.elementCopies call field count copy items out.cursor layout).Packs lengths :=
        Encode.Packs.elements (fun item start => packs_assign h field item start _) _ _ _ _
      obtain ⟨hSize, _⟩ := hCopies _ after hRun
      have hCursor := hStill out.cursor (out.reserve pos (count * layout.elementSize))
      unfold Encode.lastCursor at hCursor
      rw [hRun] at hCursor
      dsimp only at hCursor
      rw [Output.cursor_reserve] at hCursor
      refine ⟨hSize.trans (out.size_reserve _ _), hCursor.trans ?_⟩
      unfold packed Output.room
      rw [if_pos hFits]

/-- A step packs arrays, if what it calls does. -/
theorem packs_step {step : Step} (hCalls : ∀ copy ∈ step.copies, encoder.CallsPack call copy)
    (hStill : ∀ field lengthField element copy, step = .varLen field lengthField element copy →
      ∀ count items start layout,
        (encoder.elementCopies call field count copy items start layout).Still)
    (source : String) (input : Option Value) (base : Nat) :
    ∃ lengths, (encoder.step call source input base step).Packs lengths := by
  refine Encode.Packs.lift_bind fun layout _ => ?_
  cases step with
  | fixedScalar field value =>
      exact Encode.Packs.lift_bind fun n _ => ⟨[], Encode.packs_scalar _ _ _ _ _⟩
  | fixedFill field value =>
      exact Encode.Packs.lift_bind fun n _ => ⟨[], Encode.packs_fill _ _ _⟩
  | assign field copy => exact packs_assign (hCalls copy List.mem_cons_self) _ _ _ _
  | varLen field lengthField element copy =>
      refine Encode.Packs.lift_bind fun count _ => ?_
      exact ⟨_, packs_varLen (hCalls copy List.mem_cons_self)
        (fun start => hStill _ _ _ _ rfl count _ start layout) _⟩
  | union field record discriminator arms =>
      have hActive : ∃ lengths, Encode.Packs (do
          let selector ← integerOf (fieldOf input discriminator) discriminator
          let arm ← encoder.selectArm field selector arms
          let variant ← encoder.fieldLayout record.source arm.member
          encoder.assign call arm.copy arm.member (fieldOf (fieldOf input field) arm.member)
            (base + layout.offset + variant.offset) variant) lengths := by
        refine Encode.Packs.lift_bind fun selector _ => Encode.Packs.lift_bind fun arm hArm => ?_
        refine Encode.Packs.lift_bind fun variant _ => ?_
        exact packs_assign (hCalls arm.copy (List.mem_map_of_mem (mem_of_selectArm hArm))) _ _ _ _
      obtain ⟨lengths, hPacks⟩ := hActive
      exact ⟨lengths, (Encode.packs_fill _ _ _).bind hPacks⟩

end Encoder

/-! ## Compiled programs -/

section Compiled

variable {declarations : Declarations} {request : Request} {naming : Naming} {encoder : Encoder}

/-- The run behind a root that was encoded. -/
theorem Encoder.exists_run {root : String} {value : Value} {buffer : Array UInt8} {stop : Nat}
    (h : (encoder.encodeInto root value buffer).1 = .ok stop) :
    ∃ point needed function, encoder.prepare root buffer.size = .ok (point, needed, function) ∧
      ∃ out,
        encoder.run (encoder.callLimit value buffer.size) function (some value) 0
          ⟨buffer, min needed payloadLimit⟩ = .ok () out ∧
        stop = if point.varLen then max out.cursor needed else needed := by
  rcases encoder.encodeInto_cases root value buffer with
    ⟨_, _, hEq⟩ | ⟨point, needed, function, hPrepare, ⟨_, _, _, hEq⟩ | ⟨out, hRun, hEq⟩⟩
  · rw [hEq] at h
    cases h
  · rw [hEq] at h
    cases h
  · rw [hEq] at h
    exact ⟨point, needed, function, hPrepare, out, hRun, (Except.ok.inj h).symm⟩

/-- **Runs pack arrays**: the functions of a compiled program come to the same arrays in every
buffer. -/
theorem Compiled.packs_run (h : Compiled declarations request naming encoder.program) (fuel : Nat)
    {function : EncodeFunction} (hFunction : function ∈ encoder.program.encodeFunctions)
    (value : Option Value) (base : Nat) :
    ∃ lengths, (encoder.run fuel function value base).Packs lengths := by
  induction fuel generalizing function value base with
  | zero => exact ⟨[], Encode.Packs.throw .endless []⟩
  | succ fuel ih =>
      rw [Encoder.run_succ]
      split
      · refine Encode.Packs.forM fun step hStep => ?_
        refine Encoder.packs_step (fun copy _ source _ callee hCallee => ?_) ?_ _ _ _
        · exact ih (Encoder.mem_of_encodeFunction hCallee)
        · rintro field lengthField element copy rfl count items start layout
          exact h.still_elements fuel hFunction hStep count items start layout
      · exact ⟨[], Encode.Packs.throw _ []⟩

/-- Limits on chains of calls that are out of reach make no difference. -/
theorem Compiled.run_limit (h : Compiled declarations request naming encoder.program)
    {function : EncodeFunction} (hFunction : function ∈ encoder.program.encodeFunctions)
    (value : Value) (size other : Nat) (base : Nat) :
    encoder.run (encoder.callLimit value size) function (some value) base =
      encoder.run (encoder.callLimit value other) function (some value) base := by
  have hBlind : encoder.Blind (AlikeOption declarations naming.index encoder fun _ _ => False) :=
    h.blind fun _ _ hFalse => hFalse.elim
  have hRank := Program.encodeRank_lt_length hFunction
  exact hBlind.run_congr h.calleeFirst hFunction
    (Nat.lt_of_lt_of_le hRank (encoder.length_le_callLimit value size))
    (Nat.lt_of_lt_of_le hRank (encoder.length_le_callLimit value other)) (.inl rfl) base

/-- **Ends of encodings**: an encoding ends behind the packed type, or where packing the arrays
of the value behind it ends. -/
theorem Compiled.exists_lengths (h : Compiled declarations request naming encoder.program)
    (root : String) (value : Value) :
    ∃ (needed : Nat) (lengths : List Nat), ∀ buffer stop,
      (encoder.encodeInto root value buffer).1 = .ok stop → needed ≤ buffer.size ∧
        stop = max (lengths.foldl (packed (min buffer.size payloadLimit))
          (min needed payloadLimit)) needed := by
  by_cases hSome : ∃ buffer stop, (encoder.encodeInto root value buffer).1 = .ok stop
  case neg => exact ⟨0, [], fun buffer stop hInto => absurd ⟨buffer, stop, hInto⟩ hSome⟩
  obtain ⟨first, _, hFirst⟩ := hSome
  obtain ⟨point, needed, function, hPrepare, _⟩ := Encoder.exists_run hFirst
  obtain ⟨hPoint, hStatic, _, hCallee⟩ := Encoder.prepare_eq_ok hPrepare
  have hFunction := Encoder.mem_of_encodeFunction hCallee
  obtain ⟨lengths, hPacks⟩ :=
    h.packs_run (encoder.callLimit value first.size) hFunction (some value) 0
  refine ⟨needed, if point.varLen then lengths else [], fun buffer stop hInto => ?_⟩
  -- What is prepared depends on the root only.
  obtain ⟨point', needed', function', hPrepare', out, hRun, hStop⟩ := Encoder.exists_run hInto
  obtain ⟨hPoint', hStatic', hNeeded, hCallee'⟩ := Encoder.prepare_eq_ok hPrepare'
  obtain rfl : point = point' := Option.some.inj (hPoint.symm.trans hPoint')
  obtain rfl : needed = needed' := Except.ok.inj (hStatic.symm.trans hStatic')
  obtain rfl : function = function' := Except.ok.inj (hCallee.symm.trans hCallee')
  rw [h.run_limit hFunction value buffer.size first.size] at hRun
  obtain ⟨_, hCursor⟩ := hPacks _ out hRun
  refine ⟨hNeeded, ?_⟩
  rw [hStop]
  split
  · rw [hCursor]
    rfl
  · show needed = max (min needed payloadLimit) needed
    omega

/-- **Larger buffers carry no less**: take any encoder of a compiled program, a root and a
value, and two buffers into which it can be encoded.  The encoding in the larger one does not
end before that in the smaller one, and each ends inside its buffer.  If the ends differ, then
the larger buffer has been filled beyond what there is of the smaller one. -/
theorem larger_buffer_carries_no_less {index : DirectiveIndex} {settings : Settings}
    {program : Program} {primitives : Primitives}
    (hCompile : compile declarations index settings request = .ok program)
    (hEncoder : encoder.IsFor program primitives) {root : String} {value : Value}
    {small large : Array UInt8} (hSize : small.size ≤ large.size) {stop stop' : Nat}
    (hSmall : (encoder.encodeInto root value small).1 = .ok stop)
    (hLarge : (encoder.encodeInto root value large).1 = .ok stop') :
    stop ≤ stop' ∧ stop ≤ small.size ∧ stop' ≤ large.size ∧
      (stop = stop' ∨ min small.size payloadLimit < stop') := by
  obtain ⟨rfl, _⟩ := hEncoder.layouts
  obtain ⟨naming, rfl, h⟩ := compiled_of_compile hCompile
  obtain ⟨needed, lengths, hEnds⟩ := h.exists_lengths root value
  obtain ⟨hNeeded, hStop⟩ := hEnds small stop hSmall
  obtain ⟨_, hStop'⟩ := hEnds large stop' hLarge
  have hRoom : min small.size payloadLimit ≤ min large.size payloadLimit := by omega
  have hStart : min needed payloadLimit ≤ min small.size payloadLimit := by omega
  have hWithin := foldl_packed_le hStart lengths
  have hWithin' := foldl_packed_le (hStart.trans hRoom) lengths
  have hSame : Ahead (min small.size payloadLimit) (min needed payloadLimit)
      (min needed payloadLimit) := .inl rfl
  have hAhead := hSame.foldl_packed hRoom lengths
  rcases hAhead with hEqual | hBeyond
  · rw [hEqual] at hStop' hWithin'
    omega
  · omega

end Compiled

namespace Sample

/-- Two arrays, each with a length of its own. -/
def tracks : Declarations :=
  Table.ofList
    [ ("chreTestBatch", ⟨.struct,
        [ ⟨"longCount", ⟨"uint8_t", .plain⟩⟩, ⟨"long", ⟨"const uint8_t", .pointer⟩⟩
        , ⟨"shortCount", ⟨"uint8_t", .plain⟩⟩, ⟨"short", ⟨"const uint8_t", .pointer⟩⟩ ]⟩) ]

def tracksIndex : DirectiveIndex :=
  ⟨[ ⟨"chreTestBatch", "long", .varLenArray "longCount"⟩
   , ⟨"chreTestBatch", "short", .varLenArray "shortCount"⟩ ]⟩

def tracksProgram : Program := (compileWithin 20 tracks tracksIndex {} request).getD default

def tracksEncoder : Encoder :=
  ⟨tracksProgram, (Layouts.ofProgram Primitives.standard tracksProgram).toOption.getD Table.empty,
    Table.empty, payloadLimit⟩

/-- A long array of five bytes, and a short one of three. -/
def twoTracks : Value := .record [("longCount", .int 5), ("shortCount", .int 3)]

/-- Behind ten bytes of packed type, a buffer of 14 bytes has room for the short array only.  With
two bytes more the long one is stored, and the short one is crowded out. -/
theorem short_track_crowded_out :
    (tracksEncoder.encodeInto "chreTestBatch" twoTracks (Array.replicate 14 0)).1 = .ok 13 ∧
      (tracksEncoder.encodeInto "chreTestBatch" twoTracks (Array.replicate 16 0)).1 = .ok 15 ∧
      13 ≤ 15 ∧ 13 ≤ (Array.replicate 14 (0 : UInt8)).size ∧
      15 ≤ (Array.replicate 16 (0 : UInt8)).size ∧
      (13 = 15 ∨ min (Array.replicate 14 (0 : UInt8)).size payloadLimit < 15) := by
  have hCompile : compile tracks tracksIndex {} request = .ok tracksProgram :=
    compile_getD (by decide +kernel)
  have hEncoder : tracksEncoder.IsFor tracksProgram Primitives.standard :=
    Encoder.isFor_of_layouts (eq_ok_getD (by decide +kernel))
  have hSmall : (tracksEncoder.encodeInto "chreTestBatch" twoTracks (Array.replicate 14 0)).1 =
      .ok 13 := eq_ok_of_toOption (by decide +kernel)
  have hLarge : (tracksEncoder.encodeInto "chreTestBatch" twoTracks (Array.replicate 16 0)).1 =
      .ok 15 := eq_ok_of_toOption (by decide +kernel)
  exact ⟨hSmall, hLarge,
    larger_buffer_carries_no_less hCompile hEncoder (by decide) hSmall hLarge⟩

end Sample

end WireSchema
