import WireSchema.Proofs.ReferenceRecords
import WireSchema.Proofs.SizeAgreement
import WireSchema.Proofs.Writes

/-!
# Encoded bytes are those of the reference

A step of a ready function writes the piece that the reference has for it, if the
functions that it calls write theirs.  The steps of a function tile its packed type, so
together they write the image of the record.

## Main results

* `Encoder.writes_step`: one step.
* `Compiled.writes_run`: a run of a function.
* `encodes_reference`: what encoding into a buffer leaves there.
-/

namespace WireSchema

namespace Encoder

variable {encoder : Encoder} {call : EncodeCall} {ref : Reference} {room : Nat}

/-- Calling the function writes the image of the record, in a buffer of `room` bytes. -/
def CallWrites (encoder : Encoder) (ref : Reference) (call : EncodeCall) (room : Nat)
    (function : EncodeFunction) : Prop :=
  ∀ size, encoder.staticSize function.source = .ok size → ∀ value pos out,
    pos + size ≤ out.buffer.size → out.buffer.size = room →
    Encode.Writes (call function value pos) (ref.record function.source value) pos size out

/-- The reference is about what the encoder runs, in a buffer of `room` bytes. -/
structure Matches (encoder : Encoder) (ref : Reference) (room : Nat) : Prop where
  constants : ref.constants = encoder.constants
  room_eq : ref.room = min room payloadLimit
  wordSized : ref.primitives.WordSized
  places : ∀ {source field layout}, encoder.fieldLayout source field = .ok layout →
    ∃ member, ref.member? source field = some member ∧
      layout.PlaceOf ref.primitives ref.typeSize member

theorem Matches.literal? (h : encoder.Matches ref room) {literal : Literal} {n : Int64}
    (hValue : encoder.valueOf literal = .ok n) : ref.literal? literal = some n := by
  cases literal with
  | int value => exact congrArg some (Except.ok.inj hValue)
  | symbol name =>
    show ref.constants.get? name = some n
    rw [h.constants]
    unfold Encoder.valueOf at hValue
    dsimp only at hValue
    split at hValue
    · rename_i hSome
      rw [hSome]
      exact congrArg some (Except.ok.inj hValue)
    · cases hValue

theorem Matches.find?_of_selectArm (h : encoder.Matches ref room) {field : String}
    {selector : Int64} {arms : List UnionArm} {arm : UnionArm}
    (hArm : encoder.selectArm field selector arms = .ok arm) :
    arms.find? (fun arm => ref.literal? arm.value = some selector) = some arm := by
  induction arms with
  | nil => cases hArm
  | cons first rest ih =>
      obtain ⟨n, hValue, hRest⟩ := bind_eq_ok.1 hArm
      have hLiteral := h.literal? hValue
      split at hRest
      · rename_i hEq
        rw [List.find?_cons_of_pos (by rw [hLiteral, hEq]; simp), pure_eq_ok.1 hRest]
      · rename_i hNe
        rw [List.find?_cons_of_neg (by rw [hLiteral]; simpa using hNe)]
        exact ih hRest

/-! ## Copies -/

section Copies

variable {layout : FieldLayout} {representation : Representation} {pos : Nat} {out : Output}

theorem writes_scalar (hWord : ref.primitives.WordSized)
    (hRepresents : layout.Represents ref.primitives representation) (field : String)
    (value : Option Value) (hRoom : pos + layout.elementSize ≤ out.buffer.size) :
    Encode.Writes (Encode.scalar pos layout.elementSize layout.scalar value field)
      (ref.scalar representation value) pos layout.elementSize out := by
  cases hScalar : layout.scalar with
  | none =>
      intro after next hRun
      obtain ⟨bytes, hBytes, _⟩ := (Encode.scalar_ok hRoom).1 hRun
      cases hBytes
  | some scalar =>
      obtain ⟨spec, rfl, hResolve⟩ := hRepresents scalar hScalar
      have hPiece : ref.scalar (.primitive spec) value =
          .bytes (Reference.scalarBytes? ⟨layout.elementSize, scalar⟩ value) := by
        rw [Reference.scalar, hResolve]
        rfl
      rw [hPiece]
      exact Encode.writes_scalar (hWord.resolve hResolve) hRoom

/-- A copy writes its piece. -/
theorem writes_assign (hWord : ref.primitives.WordSized)
    (hRepresents : layout.Represents ref.primitives representation) {copy : Copy}
    (hCalls : encoder.Calls (encoder.CallWrites ref call room) copy)
    (hFits : encoder.CopyFits layout copy) (field : String) (value : Option Value)
    (hRoom : pos + layout.size ≤ out.buffer.size) (hSize : out.buffer.size = room) :
    Encode.Writes (encoder.assign call copy field value pos layout)
      (ref.copy ref.record representation copy value) pos layout.size out := by
  cases copy with
  | scalar =>
      rw [hFits.2] at hRoom ⊢
      exact writes_scalar hWord hRepresents field value hRoom
  | array length =>
      rw [hFits.2] at hRoom ⊢
      exact Encode.writes_elements
        (fun item pos out hItem _ => writes_scalar hWord hRepresents field item hItem)
        length _ pos out hRoom hSize
  | record source function varLen =>
      obtain ⟨hStatic, hWhole⟩ := hFits
      obtain ⟨callee, hCallee, _, hWrites⟩ := hCalls source rfl
      have hSource := source_of_encodeFunction hCallee
      rw [← hSource] at hStatic
      rw [hWhole] at hRoom ⊢
      rw [assign_record hCallee]
      show Encode.Writes _ (ref.record source value) _ _ _
      rw [← hSource]
      exact hWrites _ hStatic value pos out hRoom hSize
  | recordArray source function length =>
      obtain ⟨hStatic, hWhole⟩ := hFits
      obtain ⟨callee, hCallee, _, hWrites⟩ := hCalls source rfl
      have hSource := source_of_encodeFunction hCallee
      rw [← hSource] at hStatic
      rw [hWhole] at hRoom ⊢
      rw [assign_recordArray hCallee]
      show Encode.Writes _ (.repeated length (ref.record source) (itemsOf value)) _ _ _
      rw [← hSource]
      exact Encode.writes_elements (hWrites _ hStatic) length _ pos out hRoom hSize

/-- An array that there is no room for writes a descriptor of zeros. -/
theorem writes_unstored {field : String} {count : Nat} {copy : Copy} {items : Option Value}
    (hReserve : reservation? count layout.elementSize out.cursor out.buffer.size = none)
    (hRoom : pos + descriptorSize ≤ out.buffer.size) :
    Encode.Writes (encoder.varLen call field count copy items pos layout)
      (.bytes (some (List.replicate descriptorSize 0))) pos descriptorSize out := by
  refine Encode.Writes.of_store hRoom rfl List.length_replicate fun after hRun => ?_
  rw [varLen_of_none hReserve, Encode.storeDescriptor_eq _ _ hRoom] at hRun
  exact (EStateM.Result.ok.inj hRun).2.symm

/-- The elements of an array write their pieces into the payload that is reserved for them.
They have no payload of their own. -/
theorem writes_stored {primitives : Primitives} (hMatches : encoder.Matches ref room)
    (hRepresents : layout.Represents ref.primitives representation) {copy : Copy}
    (hSafe : encoder.Calls (encoder.CallSafe primitives call) copy)
    (hCalls : encoder.Calls (encoder.CallWrites ref call room) copy)
    (hFits : encoder.CopyFits layout.element copy) (hFixed : copy.varLen = false)
    (hHolds : layout.Holds primitives) {field : String} {count : Nat} {items : Option Value}
    (hBound : out.cursor + count * layout.elementSize ≤ min out.buffer.size payloadLimit)
    (hSize : out.buffer.size = room) {after : Output}
    (hRun : encoder.elementCopies call field count copy items out.cursor layout
      (out.reserve pos (count * layout.elementSize)) = .ok () after) :
    ∃ image, Piece.repeated count (ref.copy ref.record representation copy) (itemsOf items)
        (out.cursor + count * layout.elementSize) = some image ∧ image.payload = [] ∧
      image.Written out.cursor (count * layout.elementSize)
        (out.cursor + count * layout.elementSize) after ∧
      Frame out.cursor (count * layout.elementSize) false
        (out.reserve pos (count * layout.elementSize)) after := by
  have hFrame := (safe_elementCopies hSafe hFits hFixed hHolds field count items
    hBound).frame_of_ok hRun
  have hCursor := out.cursor_reserve pos (count * layout.elementSize)
  have hSame := out.size_reserve pos (count * layout.elementSize)
  have hInside : out.cursor + layout.elementSize * count ≤
      (out.reserve pos (count * layout.elementSize)).buffer.size := by
    rw [Nat.mul_comm]
    omega
  have hElements := Encode.writes_elements
    (fun item pos out hItem hSame => writes_assign hMatches.wordSized hRepresents.element hCalls
      hFits field item hItem hSame)
    count (itemsOf items) out.cursor _ hInside (hSame.trans hSize)
  rw [Nat.mul_comm layout.element.size] at hElements
  obtain ⟨_, image, hImage, hWritten⟩ := hElements after
    (out.cursor + count * layout.elementSize) hRun (by omega) (Nat.le_refl _)
  exact ⟨image, hImage, hWritten.payload_eq_nil ((hFrame.still rfl).trans hCursor), hWritten,
    hFrame⟩

/-- A variable-length array writes its descriptor, and its elements as payload if there is
room. -/
theorem writes_varLen {primitives : Primitives} (hMatches : encoder.Matches ref room)
    (hRepresents : layout.Represents ref.primitives representation) {copy : Copy}
    (hSafe : encoder.Calls (encoder.CallSafe primitives call) copy)
    (hCalls : encoder.Calls (encoder.CallWrites ref call room) copy)
    (hFits : encoder.CopyFits layout.element copy) (hFixed : copy.varLen = false)
    (hHolds : layout.Holds primitives) (field : String) (count : Nat) (items : Option Value)
    (hRoom : pos + descriptorSize ≤ out.buffer.size) (hSize : out.buffer.size = room) :
    Encode.Writes (encoder.varLen call field count copy items pos layout)
      ((Piece.repeated count (ref.copy ref.record representation copy) (itemsOf items)).described
        (count * layout.elementSize) ref.room) pos descriptorSize out := by
  cases hReserve : reservation? count layout.elementSize out.cursor out.buffer.size with
  | none =>
      intro after next hRun hCursor hNext
      have hRoomEq := hMatches.room_eq
      have hNot : ¬ (0 < count * layout.elementSize ∧
          next + count * layout.elementSize ≤ ref.room) := by
        have := reservation?_eq_none hReserve
        omega
      rw [Piece.described_of_not_fits _ hNot]
      exact writes_unstored hReserve hRoom after next hRun hCursor hNext
  | some length =>
      obtain ⟨rfl, hPos, hBound⟩ := reservation?_eq_some hReserve
      intro after next hRun hCursor hNext
      obtain rfl : out.cursor = next := by omega
      have hRoomEq := hMatches.room_eq
      rw [varLen_of_some hReserve hRoom] at hRun
      obtain ⟨image, hImage, hEmpty, hWritten, hFrame⟩ := writes_stored hMatches hRepresents hSafe
        hCalls hFits hFixed hHolds hBound hSize hRun
      refine ⟨Frame.of_reserve hRoom hBound hFrame, _,
        Piece.described_of_fits ⟨hPos, by omega⟩ hImage,
        hWritten.described hEmpty (by omega) fun i hi => ?_⟩
      -- The elements are behind the descriptor, which was there before them.
      rw [hFrame.outside (pos + i) (by omega) (by rw [Output.cursor_reserve]; omega),
        Output.getElem?_reserve hRoom hi, leBytes_eq, leBytes_eq]

end Copies

/-! ## Steps -/

section Steps

variable {primitives : Primitives} {layout : FieldLayout} {pos base : Nat} {out : Output}

/-- A union can only be encoded with a member that its discriminator selects. -/
theorem union_ok {field discriminator : String} {record : RecordRef} {arms : List UnionArm}
    {input : Option Value} {after : Output}
    (h : encoder.union call field record discriminator arms input pos layout out = .ok () after) :
    ∃ selector arm variant, integerOf (fieldOf input discriminator) discriminator = .ok selector ∧
      encoder.selectArm field selector arms = .ok arm ∧
      encoder.fieldLayout record.source arm.member = .ok variant := by
  obtain ⟨_, _, _, hSelect⟩ := Encode.bind_ok.1 h
  obtain ⟨selector, hSelector, hChoose⟩ := Encode.lift_bind_ok.1 hSelect
  obtain ⟨arm, hArm, hPlace⟩ := Encode.lift_bind_ok.1 hChoose
  obtain ⟨variant, hVariant, _⟩ := Encode.lift_bind_ok.1 hPlace
  exact ⟨selector, arm, variant, hSelector, hArm, hVariant⟩

/-- A union writes its active member, and zeros behind. -/
theorem writes_union (hMatches : encoder.Matches ref room) {field discriminator : String}
    {record : RecordRef} {arms : List UnionArm} {arm : UnionArm} {variant : FieldLayout}
    {member : PackedMember} {input : Option Value} {selector : Int64}
    (hSelector : integerOf (fieldOf input discriminator) discriminator = .ok selector)
    (hArm : encoder.selectArm field selector arms = .ok arm)
    (hVariant : encoder.fieldLayout record.source arm.member = .ok variant)
    (hOffset : variant.offset = 0) (hLe : variant.size ≤ layout.size)
    (hPlace : variant.PlaceOf ref.primitives ref.typeSize member)
    (hCalls : encoder.Calls (encoder.CallWrites ref call room) arm.copy)
    (hFits : encoder.CopyFits variant arm.copy) (hRoom : pos + layout.size ≤ out.buffer.size)
    (hSize : out.buffer.size = room) :
    Encode.Writes (encoder.union call field record discriminator arms input pos layout)
      ((ref.copy ref.record member.placement.representation arm.copy
        (fieldOf (fieldOf input field) arm.member)).padded layout.size) pos layout.size out := by
  refine Encode.Writes.padded hRoom hLe ?_
  rw [Encode.lift_bind_of_ok hSelector, Encode.lift_bind_of_ok hArm,
    Encode.lift_bind_of_ok hVariant, hOffset, Nat.add_zero]
  refine writes_assign hMatches.wordSized hPlace.represents hCalls hFits arm.member _ ?_ ?_
  · rw [size_storeBytes]
    omega
  · rw [size_storeBytes]
    exact hSize

/-- What is known of the functions that a ready function calls. -/
def CallExact (encoder : Encoder) (primitives : Primitives) (ref : Reference) (call : EncodeCall)
    (room : Nat) (function : EncodeFunction) : Prop :=
  encoder.CallSafe primitives call function ∧ encoder.CallWrites ref call room function

/-- A step writes the piece of its member. -/
theorem writes_step (hMatches : encoder.Matches ref room) {source : String} {step : Step}
    {part : Option SizeTerm}
    (hCalls : ∀ copy ∈ step.copies, encoder.Calls (encoder.CallExact primitives ref call room) copy)
    (hLayout : encoder.fieldLayout source step.field = .ok layout)
    (hHolds : layout.Holds primitives) (hFits : encoder.StepFits primitives layout part step)
    (input : Option Value) (hRoom : base + layout.offset + layout.size ≤ out.buffer.size)
    (hSize : out.buffer.size = room) :
    Encode.Writes (encoder.step call source input base step)
      (ref.step ref.record source input step) (base + layout.offset) layout.size out := by
  have hSafe : ∀ copy ∈ step.copies, encoder.Calls (encoder.CallSafe primitives call) copy :=
    fun copy hCopy => (hCalls copy hCopy).imp fun _ hExact => hExact.1
  have hWrites : ∀ copy ∈ step.copies, encoder.Calls (encoder.CallWrites ref call room) copy :=
    fun copy hCopy => (hCalls copy hCopy).imp fun _ hExact => hExact.2
  obtain ⟨member, hMember, hPlace⟩ := hMatches.places hLayout
  rw [Encoder.step, Encode.lift_bind_of_ok hLayout]
  cases step with
  | fixedScalar field value =>
      dsimp only [Step.field] at hMember
      rw [hFits.1] at hRoom ⊢
      refine Encode.Writes.lift fun n hValue => ?_
      rw [Reference.step_fixedScalar hMember (hMatches.literal? hValue)]
      exact writes_scalar hMatches.wordSized hPlace.represents field _ hRoom
  | fixedFill field value =>
      dsimp only [Step.field] at hMember
      refine Encode.Writes.lift fun n hValue => ?_
      have hByte : UInt8.ofNat (n.toInt % 256).toNat = byteAt (wordOf n) 0 := by
        rw [byteAt_zero]
        exact congrArg UInt8.ofNat (toNat_toInt_emod n (by decide : 1 ≤ 8))
      rw [Reference.step_fixedFill hMember (hMatches.literal? hValue), hByte, ← hPlace.size_eq]
      exact Encode.writes_fill _ hRoom
  | assign field copy =>
      dsimp only [Step.field] at hMember
      rw [Reference.step_assign hMember]
      exact writes_assign hMatches.wordSized hPlace.represents (hWrites copy List.mem_cons_self)
        hFits.1 field _ hRoom hSize
  | varLen field lengthField element copy =>
      dsimp only [Step.field] at hMember
      obtain ⟨hWhole, hCopy, hFixed, _⟩ := hFits
      rw [hWhole] at hRoom ⊢
      refine Encode.Writes.lift fun count hCount => ?_
      rw [Reference.step_varLen hMember (length?_of_lengthOf hCount), ← hPlace.elementSize_eq]
      exact writes_varLen hMatches hPlace.represents (hSafe copy List.mem_cons_self)
        (hWrites copy List.mem_cons_self) hCopy hFixed hHolds field count _ hRoom hSize
  | union field record discriminator arms =>
      dsimp only [Step.field] at hMember
      -- The arm is known only once the run has chosen it.
      refine Encode.Writes.of_ok fun after hRun => ?_
      obtain ⟨selector, arm, variant, hSelector, hArm, hVariant⟩ := union_ok hRun
      have hMem := mem_of_selectArm hArm
      obtain ⟨active, hActive, hActivePlace⟩ := hMatches.places hVariant
      obtain ⟨found, hFound, hOffset, hLe, _, hCopy, _⟩ := hFits.2 arm hMem
      cases hVariant.symm.trans hFound
      rw [Reference.step_union hMember (integer?_of_integerOf hSelector)
        (hMatches.find?_of_selectArm hArm) hActive, ← hPlace.size_eq]
      exact writes_union hMatches hSelector hArm hVariant hOffset hLe hActivePlace
        (hWrites arm.copy (List.mem_map_of_mem hMem)) hCopy hRoom hSize

/-- The steps that tile a packed type write its pieces one after another. -/
theorem writes_steps (hMatches : encoder.Matches ref room) {source : String} {offset size : Nat}
    {steps : List Step} {parts : List (Option SizeTerm)}
    (hTiles : encoder.Tiles primitives source offset steps parts size)
    (hCalls : ∀ step ∈ steps, ∀ copy ∈ step.copies,
      encoder.Calls (encoder.CallExact primitives ref call room) copy)
    (input : Option Value) (hRoom : base + size ≤ out.buffer.size)
    (hSize : out.buffer.size = room) :
    Encode.Writes (steps.forM (encoder.step call source input base))
      (.concat (steps.map (ref.step ref.record source input))) (base + offset) (size - offset)
      out := by
  induction hTiles generalizing out with
  | nil =>
      rw [Nat.sub_self]
      exact Encode.Writes.pure
  | @cons offset size step steps part parts layout hLayout hOffset hHolds hFits hRest ih =>
      have hLe := hRest.le
      have hStep := writes_step hMatches (hCalls step List.mem_cons_self) hLayout hHolds hFits input
        (by omega : base + layout.offset + layout.size ≤ out.buffer.size) hSize
      rw [hOffset] at hStep
      rw [show size - offset = layout.size + (size - (offset + layout.size)) by omega]
      refine hStep.append fun mid hSame => ?_
      rw [Nat.add_assoc]
      exact ih (fun _ hMem => hCalls _ (List.mem_cons_of_mem _ hMem)) (by omega) (by omega)

end Steps

end Encoder

section Compiled

variable {declarations : Declarations} {request : Request} {naming : Naming}
  {encoder : Encoder} {primitives : Primitives} {room : Nat}

theorem Compiled.matches (h : Compiled declarations request naming encoder.program)
    (hLayouts : Layouts.ofProgram primitives encoder.program = .ok encoder.layouts)
    (hFields : encoder.program.DistinctFields declarations) (hWord : primitives.WordSized) :
    encoder.Matches (encoder.reference primitives (min room payloadLimit)) room where
  constants := rfl
  room_eq := rfl
  wordSized := hWord
  places hLayout := h.placeOf_of_fieldLayout hLayouts hFields hLayout

/-- **Runs write images**: a run of a ready function writes the image of the record, in any
place of the buffer. -/
theorem Compiled.writes_run (h : Compiled declarations request naming encoder.program)
    (hLayouts : Layouts.ofProgram primitives encoder.program = .ok encoder.layouts)
    (hFields : encoder.program.DistinctFields declarations) (hWord : primitives.WordSized)
    {height : Nat} {function : EncodeFunction}
    (hFunction : function ∈ encoder.program.encodeFunctions)
    (hReady : encoder.Ready primitives height function) {fuel : Nat} (hFuel : height ≤ fuel) :
    encoder.CallWrites (encoder.reference primitives (min room payloadLimit)) (encoder.run fuel)
      room function := by
  induction height generalizing function fuel with
  | zero => exact hReady.elim
  | succ height ih =>
      obtain ⟨fuel, rfl⟩ : ∃ k, fuel = k + 1 := ⟨fuel - 1, by omega⟩
      obtain ⟨⟨size, parts, hSize, hTiles, _⟩, hCalls⟩ := hReady
      intro given hGiven value pos out hRoom hBuffer
      rw [hSize] at hGiven
      cases hGiven
      rw [Encoder.run_succ]
      split
      · rename_i hRecord
        rw [Compiled.record_eq h hFunction hRecord]
        refine Encoder.writes_steps (h.matches hLayouts hFields hWord) hTiles ?_ value hRoom hBuffer
        intro step hStep copy hCopy source hSource
        obtain ⟨callee, hCallee, hVarLen, hCalleeReady⟩ :=
          hCalls step hStep copy hCopy source hSource
        refine ⟨callee, hCallee, hVarLen, Encoder.safe_run hCalleeReady (by omega),
          ih (Encoder.mem_of_encodeFunction hCallee) hCalleeReady (by omega)⟩
      · intro after next hRun
        cases hRun

end Compiled

section Deployed

variable {declarations : Declarations} {request : Request} {naming : Naming}
  {encoder : Encoder} {primitives : Primitives}

/-- What encoding into a buffer leaves there, with any table of word-sized types. -/
theorem Deployed.image_of_encodeInto (h : Deployed declarations request naming encoder primitives)
    (hWord : primitives.WordSized) {root : String} {value : Value} {buffer after : Array UInt8}
    {stop : Nat} (hInto : encoder.encodeInto root value buffer = (.ok stop, after)) :
    ∃ image, (encoder.reference primitives (min buffer.size payloadLimit)).root root value =
        some image ∧
      stop = image.place.length + image.payload.length ∧
      after.toList = image.place ++ image.payload ++ buffer.toList.drop stop := by
  obtain ⟨point, needed, function, out, hPrepared, hRun, hFrame, hStop, rfl⟩ :=
    h.run_of_encodeInto hInto
  have hRoom := hPrepared.room
  obtain ⟨_, image, hImage, hWritten⟩ := h.compiled.writes_run h.layouts h.fields hWord
    (Encoder.mem_of_encodeFunction hPrepared.encodes) hPrepared.ready
    (encoder.length_le_callLimit value _) needed hPrepared.static (some value) 0 _
    (by simpa using hRoom) rfl out needed hRun rfl (by omega)
  rw [hPrepared.source_eq] at hImage
  have hTypeSize : (encoder.reference primitives (min buffer.size payloadLimit)).typeSize root =
      needed := by
    rw [← hPrepared.source_eq]
    exact Encoder.typeSize_eq h.layouts hPrepared.static
  have hLength := hWritten.length_eq
  have hCursor := hWritten.cursor_eq
  have hEnd : stop = needed + image.payload.length := by
    have hFits : image.payload.length = 0 ∨ needed + image.payload.length ≤ payloadLimit :=
      hWritten.fits.imp_left fun hEmpty => by rw [hEmpty, List.length_nil]
    omega
  refine ⟨image, ?_, by rw [hEnd, hLength], List.ext_getElem? fun i => ?_⟩
  · rw [Reference.root, hTypeSize]
    exact hImage
  rw [Array.getElem?_toList, List.getElem?_append, List.length_append, hLength, ← hEnd]
  split
  · rename_i hInside
    rw [List.getElem?_append, hLength]
    split
    · rw [← hWritten.place i ‹_›, Nat.zero_add]
    · rw [← hWritten.payload (i - needed) (by omega)]
      congr 1
      omega
  · rename_i hBehind
    rw [List.getElem?_drop, Array.getElem?_toList, show stop + (i - stop) = i by omega]
    exact hFrame.outside i (by omega) (by omega)

/-- **Correctness of encoding**: take an encoder of a compiled program without mixed
directives, laid out with the standard primitive types and any integers of one to eight
bytes.  Whatever the root, the value, the constants and the buffer, if encoding into the
buffer succeeds, the reference has an image of the root, and the buffer holds its packed
type, then its payload, and then what was there. -/
theorem encodes_reference {index : DirectiveIndex} {settings : Settings} {program : Program}
    (hCompile : compile declarations index settings request = .ok program)
    (hFields : program.DistinctFields declarations) (hUnmixed : program.Unmixed declarations index)
    {integers : List (String × Primitive)}
    (hIntegers : ∀ entry ∈ integers,
      (entry.2.scalar = .unsigned ∨ entry.2.scalar = .signed) ∧ 1 ≤ entry.2.size ∧ entry.2.size ≤ 8)
    (hEncoder : encoder.IsFor program (Primitives.standard.insertAll integers)) {root : String}
    {value : Value} {buffer after : Array UInt8} {stop : Nat}
    (hInto : encoder.encodeInto root value buffer = (.ok stop, after)) :
    ∃ image, (Reference.mk program (Primitives.standard.insertAll integers) encoder.constants
          (min buffer.size payloadLimit)).root root value = some image ∧
      stop = image.place.length + image.payload.length ∧
      after.toList = image.place ++ image.payload ++ buffer.toList.drop stop := by
  obtain ⟨naming, h⟩ := deployed_of_compile hCompile hFields hUnmixed hEncoder
  obtain ⟨rfl, _⟩ := hEncoder.layouts
  have hWord := Primitives.standard_wordSized.insertAll fun entry hEntry =>
    (hIntegers entry hEntry).2.2
  exact h.image_of_encodeInto hWord hInto

end Deployed

namespace Sample

/-- The image of the sample: the descriptor of its items stands before the constant bytes, and
refers to what comes behind them. -/
example : (encoder.reference Primitives.standard 20).root "chreTestBatch" value =
    some ⟨[1, 1, 2, 0, 0, 2, 12, 0, 4, 0, 7, 7], [3, 0, 4, 0]⟩ := by decide +kernel

theorem encodes : ∃ image,
    (Reference.mk program (Primitives.standard.insertAll []) encoder.constants
        (min buffer.size payloadLimit)).root "chreTestBatch" value = some image ∧
      16 = image.place.length + image.payload.length ∧
      written.toList = image.place ++ image.payload ++ buffer.toList.drop 16 :=
  encodes_reference compiles distinctFields unmixed (by simp) isFor encodeInto_buffer

end Sample

end WireSchema
