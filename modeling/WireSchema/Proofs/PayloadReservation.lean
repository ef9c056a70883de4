import WireSchema.Proofs.SafeExecution
import WireSchema.Proofs.StillCursor
import WireSchema.Proofs.StoreStatements

/-!
# Payload is reserved alike

A step for a variable-length array comes in two forms: the encoder runs it, and the
conversion document has statements for it.  Both compare the end of the array with the
room, and then either describe the array and move the cursor, or leave a zero descriptor.

The statements work with 16-bit objects, which keep the low bits of whatever they are
given.  The encoder computes exactly; what is beyond `payloadLimit` has no descriptor, so
it does not store it.  The two can part where a number has more than 16 bits, and do
nowhere else.

## Main results

* `Encoder.step_follows`: what the encoder does with an array.
* `reservation_eq_iff`, `seed_eq_iff`: where the statements and the encoder agree.
* `payload_reserved_alike`: they agree exactly up to 16 bits, in every compiled program.
-/

namespace WireSchema

/-! ## Reservations -/

/-- What is settled about an array before its elements are copied: whether it is stored, what
its descriptor says, and where the cursor is. -/
structure Reservation where
  stored : Bool
  offset : Nat
  length : Nat
  cursor : Nat
  deriving DecidableEq

/-- What the statements have settled. -/
def CState.reservation (state : CState) : Reservation where
  stored := state.stored
  offset := state.offset.toNat
  length := state.length.toNat
  cursor := state.cursor.toNat

/-- What the encoder settles for `count` elements in a buffer of `size` bytes. -/
def Encoder.reservation (count elementSize cursor size : Nat) : Reservation :=
  match reservation? count elementSize cursor size with
  | none => ⟨false, 0, 0, cursor⟩
  | some length => ⟨true, cursor, length, cursor + length⟩

/-- Sets the cursor. -/
def Encode.moveTo (cursor : Nat) : Encode Unit :=
  modify fun out => { out with cursor := cursor }

/-- The run does what the reservation says: it stores the descriptor at `pos`, moves the
cursor, and copies the elements if they are to be stored.  Copying leaves the cursor there. -/
structure Encode.Follows (m : Encode Unit) (reservation : Reservation) (pos : Nat)
    (copies : Encode Unit) (out : Output) : Prop where
  run_eq : m out = (do
    Encode.storeDescriptor pos reservation.offset reservation.length
    Encode.moveTo reservation.cursor
    if reservation.stored then copies : Encode Unit) out
  still : copies.Still

/-! ## The encoder -/

/-- After a run that leaves the cursor alone, it can be advanced or set. -/
theorem Encode.Still.advance_eq {m : Encode Unit} (h : m.Still) (length : Nat)
    (f : Unit → Encode Unit) (out : Output) :
    (do m; advance length; f () : Encode Unit) out =
      (do m; moveTo (out.cursor + length); f () : Encode Unit) out := by
  show EStateM.bind m (fun _ => advance length >>= f) out =
    EStateM.bind m (fun _ => moveTo (out.cursor + length) >>= f) out
  have hCursor := h out
  unfold lastCursor at hCursor
  unfold EStateM.bind
  cases hRun : m out with
  | error fault mid => rfl
  | ok done mid =>
      rw [hRun] at hCursor
      dsimp only at hCursor ⊢
      rw [← hCursor]
      rfl

/-- Advancing by nothing is as good as stopping. -/
theorem Encode.advance_zero (m : Encode Unit) (out : Output) :
    (do m; advance 0 : Encode Unit) out = m out := by
  show EStateM.bind m (fun _ => advance 0) out = _
  unfold EStateM.bind
  cases m out with
  | ok done mid => rfl
  | error fault mid => rfl

namespace Encoder

variable {encoder : Encoder} {call : EncodeCall}

theorem varLen_follows {field : String} {count : Nat} {copy : Copy} {items : Option Value}
    {pos : Nat} {layout : FieldLayout} {out : Output}
    (h : (encoder.elementCopies call field count copy items out.cursor layout).Still) :
    (encoder.varLen call field count copy items pos layout).Follows
      (reservation count layout.elementSize out.cursor out.buffer.size) pos
      (encoder.elementCopies call field count copy items out.cursor layout) out where
  run_eq := by
    have hStill := Encode.still_storeDescriptor pos
    unfold reservation
    cases hReserve : reservation? count layout.elementSize out.cursor out.buffer.size with
    | none =>
        rw [varLen_of_none hReserve]
        exact (Encode.advance_zero _ out).symm.trans ((hStill 0 0).advance_eq 0 pure out)
    | some length =>
        refine Eq.trans ?_ ((hStill out.cursor length).advance_eq length
          (fun _ => encoder.elementCopies call field count copy items out.cursor layout) out)
        simp only [Encoder.varLen, Encode.get_bind, hReserve]
        rfl
  still := h

/-- The step of a function for an array, and the statements for it, start from the same: the
place of the descriptor is known, the numbers of the two are those of each other, and the
array has not been stored. -/
structure Meets (encoder : Encoder) (source field lengthField : String) (input : Option Value)
    (inputs : CInputs) (start : CState) (layout : FieldLayout) (out : Output) : Prop where
  place : encoder.fieldLayout source field = .ok layout
  count : lengthOf input lengthField = .ok inputs.count.toNat
  typeSize : layout.elementSize = inputs.typeSize.toNat
  capacity : out.buffer.size = inputs.capacity.toNat
  cursor : out.cursor = start.cursor.toNat
  fresh : start.stored = false

/-- What the encoder reserves for the array that the statements are about. -/
def reservationFor (inputs : CInputs) (cursor : UInt16) : Reservation :=
  reservation inputs.count.toNat inputs.typeSize.toNat cursor.toNat inputs.capacity.toNat

/-- **Arrays in the encoder**: a step for an array settles what is computed for it, and the
copying of the elements does not change it. -/
theorem step_follows {source field lengthField : String} {input : Option Value} {inputs : CInputs}
    {start : CState} {layout : FieldLayout} {out : Output}
    (h : encoder.Meets source field lengthField input inputs start layout out) {copy : Copy}
    (hStill : (encoder.elementCopies call field inputs.count.toNat copy (fieldOf input field)
      out.cursor layout).Still) (element : Representation) (base : Nat) :
    (encoder.step call source input base (.varLen field lengthField element copy)).Follows
      (reservationFor inputs start.cursor) (base + layout.offset)
      (encoder.elementCopies call field inputs.count.toNat copy (fieldOf input field)
        start.cursor.toNat layout) out := by
  have hStep : encoder.step call source input base (.varLen field lengthField element copy) =
      encoder.varLen call field inputs.count.toNat copy (fieldOf input field)
        (base + layout.offset) layout := by
    unfold Encoder.step
    rw [show (Step.varLen field lengthField element copy).field = field from rfl, h.place]
    show (liftM (lengthOf input lengthField) >>= _ : Encode Unit) = _
    rw [h.count]
    rfl
  rw [hStep, reservationFor, ← h.typeSize, ← h.cursor, ← h.capacity]
  exact varLen_follows hStill

end Encoder

/-! ## The statements against the encoder -/

/-- If the statements store the array, then its whole length ends within what descriptors can
describe. -/
def CInputs.Describable (inputs : CInputs) (cursor : UInt16) : Prop :=
  0 < inputs.length.toNat → cursor.toNat + inputs.length.toNat ≤ inputs.capacity.toNat →
    cursor.toNat + inputs.count.toNat * inputs.typeSize.toNat ≤ payloadLimit

/-- Arrays that end beyond the limit are not stored by the encoder. -/
theorem reservationFor_of_beyond {inputs : CInputs} {cursor : UInt16}
    (h : payloadLimit < cursor.toNat + inputs.count.toNat * inputs.typeSize.toNat) :
    Encoder.reservationFor inputs cursor = ⟨false, 0, 0, cursor.toNat⟩ := by
  have hNone : Encoder.reservation? inputs.count.toNat inputs.typeSize.toNat cursor.toNat
      inputs.capacity.toNat = none := by
    refine if_neg fun hFits => ?_
    have hEnd := hFits.2.2
    omega
  unfold Encoder.reservationFor Encoder.reservation
  rw [hNone]

theorem lt_size_of_le_payloadLimit {n : Nat} (h : n ≤ payloadLimit) : n < UInt16.size :=
  Nat.lt_succ_of_le h

/-- Arrays that end at the limit or before are stored if there is anything to store and room
for it. -/
theorem reservationFor_of_within {inputs : CInputs} {cursor : UInt16}
    (h : cursor.toNat + inputs.count.toNat * inputs.typeSize.toNat ≤ payloadLimit) :
    inputs.length.toNat = inputs.count.toNat * inputs.typeSize.toNat ∧
      Encoder.reservationFor inputs cursor =
        if 0 < inputs.length.toNat ∧
            cursor.toNat + inputs.length.toNat ≤ inputs.capacity.toNat then
          ⟨true, cursor.toNat, inputs.length.toNat, cursor.toNat + inputs.length.toNat⟩
        else ⟨false, 0, 0, cursor.toNat⟩ := by
  have hLength : inputs.length.toNat = inputs.count.toNat * inputs.typeSize.toNat := by
    rw [inputs.toNat_length]
    exact Nat.mod_eq_of_lt (Nat.lt_of_le_of_lt (Nat.le_add_left _ _) (lt_size_of_le_payloadLimit h))
  refine ⟨hLength, ?_⟩
  unfold Encoder.reservationFor Encoder.reservation Encoder.reservation?
  dsimp only
  rw [← hLength] at h ⊢
  by_cases hFits : 0 < inputs.length.toNat ∧
      cursor.toNat + inputs.length.toNat ≤ inputs.capacity.toNat
  · rw [if_pos hFits, if_pos ⟨hFits.1, by omega, by omega⟩]
  · rw [if_neg hFits, if_neg fun hAll => hFits ⟨hAll.1, by omega⟩]

/-- **Agreement on arrays**: the statements always come to an end, and settle what the encoder
settles exactly if the array is describable. -/
theorem reservation_eq_iff (inputs : CInputs) {start : CState} (hFresh : start.stored = false) :
    ∃ final, CStmt.runAll inputs storeStatements start = some final ∧
      (final.reservation = Encoder.reservationFor inputs start.cursor ↔
        inputs.Describable start.cursor) := by
  refine ⟨_, runAll_storeStatements inputs start, ?_⟩
  by_cases hWithin : start.cursor.toNat + inputs.count.toNat * inputs.typeSize.toNat ≤ payloadLimit
  · obtain ⟨hLength, hReserved⟩ := reservationFor_of_within hWithin
    refine iff_of_true ?_ fun _ _ => hWithin
    rw [hReserved]
    split
    · have hEnd : (start.cursor + inputs.length).toNat =
          start.cursor.toNat + inputs.length.toNat := by
        rw [UInt16.toNat_add]
        rw [← hLength] at hWithin
        exact Nat.mod_eq_of_lt (lt_size_of_le_payloadLimit hWithin)
      rw [← hEnd]
      rfl
    · rw [hFresh]
      rfl
  · rw [reservationFor_of_beyond (Nat.lt_of_not_le hWithin)]
    constructor
    · -- The statements have not stored the array, so there is nothing to show of its end.
      intro hEq hPos hFits
      rw [if_pos ⟨hPos, hFits⟩] at hEq
      cases congrArg Reservation.stored hEq
    · intro hDescribable
      have hNot : ¬ (0 < inputs.length.toNat ∧
          start.cursor.toNat + inputs.length.toNat ≤ inputs.capacity.toNat) :=
        fun hFits => hWithin (hDescribable hFits.1 hFits.2)
      rw [if_neg hNot, hFresh]
      rfl

/-- **Agreement on the seed**: the statement keeps the low bits of the packed size, and the
encoder goes no further than the limit. -/
theorem seed_eq_iff (size : UInt64) :
    size.toUInt16.toNat = min size.toNat payloadLimit ↔
      size.toNat ≤ payloadLimit ∨ size.toNat % UInt16.size = payloadLimit := by
  have hLimit : payloadLimit = 65535 := rfl
  have hSize : UInt16.size = 65536 := rfl
  rw [UInt64.toNat_toUInt16, hSize]
  omega

/-! ## Entry points -/

/-- The statements of an entry point declare the cursor with the value `seed` and pass it on. -/
structure EntryPoint.Declares (point : EntryPoint) (size : UInt64) (seed : UInt16) : Prop where
  text : ∀ names : CNames, names.type = point.target →
    point.encodeStatements =
      "  uint8_t *payload = (uint8_t *) encoded;\n" ++
      CStmt.textAll names "  " cursorStatements ++
      "  " ++ point.encoder ++ "(in, encoded, payload, payloadSize, &vlaOffset);\n\n"
  run : ∀ (inputs : CInputs) (state : CState), inputs.typeSize = size →
    CStmt.runAll inputs cursorStatements state = some { state with cursor := seed }

theorem EntryPoint.declares {point : EntryPoint} (h : point.varLen = true) (size : UInt64) :
    point.Declares size size.toUInt16 where
  text names hType := encodeStatements_eq h names hType
  run inputs state hSize := by
    rw [runAll_cursorStatements, hSize]

namespace Encoder

variable {encoder : Encoder}

/-- Encodes a value that has been prepared for, with the cursor at `seed`. -/
def encodeFrom (encoder : Encoder) (seed : Nat) (point : EntryPoint) (needed : Nat)
    (function : EncodeFunction) (value : Value) (buffer : Array UInt8) :
    Except Fault Nat × Array UInt8 :=
  match encoder.run (encoder.callLimit value buffer.size) function (some value) 0
      ⟨buffer, seed⟩ with
  | .error fault out => (.error fault, out.buffer)
  | .ok _ out => (.ok (if point.varLen then max out.cursor needed else needed), out.buffer)

theorem encodeInto_of_prepare {root : String} {buffer : Array UInt8} {point : EntryPoint}
    {needed : Nat} {function : EncodeFunction}
    (h : encoder.prepare root buffer.size = .ok (point, needed, function)) (value : Value) :
    encoder.encodeInto root value buffer =
      encoder.encodeFrom (min needed payloadLimit) point needed function value buffer := by
  unfold Encoder.encodeInto
  rw [h]
  rfl

end Encoder

/-! ## Compiled programs -/

section Compiled

variable {declarations : Declarations} {request : Request} {encoder : Encoder}

/-- **Payload is reserved alike** in the conversion document of a compiled program and by an
encoder of the program, up to 16 bits and no further.

The cursor of an entry point starts where the encoder starts exactly if the size of the packed
type is at most the limit, or has low bits that are the limit.  At each variable-length array
the statements of the step and the encoder take the same branch, store the same descriptor, and
leave the cursor at the same place, exactly if the array ends at the limit or before, or if the
statements do not store it.  An array that ends beyond the limit is not stored by the encoder. -/
theorem payload_reserved_alike {index : DirectiveIndex} {settings : Settings}
    (hCompile : compile declarations index settings request = .ok encoder.program) :
    (∀ root buffer point needed function,
      encoder.prepare root buffer.size = .ok (point, needed, function) → point.varLen = true →
      ∀ size : UInt64, size.toNat = needed →
        point.Declares size size.toUInt16 ∧
        (∀ value, encoder.encodeInto root value buffer =
          encoder.encodeFrom (min needed payloadLimit) point needed function value buffer) ∧
        (size.toUInt16.toNat = min needed payloadLimit ↔
          needed ≤ payloadLimit ∨ needed % UInt16.size = payloadLimit)) ∧
    ∀ function ∈ encoder.program.encodeFunctions, ∀ field lengthField element copy,
      .varLen field lengthField element copy ∈ function.steps →
      (Step.varLen field lengthField element copy).text =
        CStmt.textAll ⟨field, lengthField, element.spelling, copy⟩ "  " storeStatements ∧
      ∀ fuel input base inputs start layout out,
        encoder.Meets function.source field lengthField input inputs start layout out →
        ∃ final, CStmt.runAll inputs storeStatements start = some final ∧
          (encoder.step (encoder.run fuel) function.source input base
            (.varLen field lengthField element copy)).Follows
              (Encoder.reservationFor inputs start.cursor) (base + layout.offset)
              (encoder.elementCopies (encoder.run fuel) field inputs.count.toNat copy
                (fieldOf input field) start.cursor.toNat layout) out ∧
          (final.reservation = Encoder.reservationFor inputs start.cursor ↔
            inputs.Describable start.cursor) ∧
          (payloadLimit < start.cursor.toNat + inputs.count.toNat * inputs.typeSize.toNat →
            Encoder.reservationFor inputs start.cursor = ⟨false, 0, 0, start.cursor.toNat⟩) := by
  obtain ⟨naming, _, hCompiled⟩ := compiled_of_compile hCompile
  refine ⟨fun root buffer point needed function hPrepare hVarLen size hSize => ?_,
    fun function hFunction field lengthField element copy hStep => ⟨?_, ?_⟩⟩
  · refine ⟨EntryPoint.declares hVarLen size, Encoder.encodeInto_of_prepare hPrepare, ?_⟩
    rw [← hSize]
    exact seed_eq_iff size
  · exact (textAll_storeStatements ⟨field, lengthField, element.spelling, copy⟩).symm
  · intro fuel input base inputs start layout out hMeets
    obtain ⟨final, hRun, hIff⟩ := reservation_eq_iff inputs hMeets.fresh
    refine ⟨final, hRun, Encoder.step_follows hMeets ?_ element base, hIff,
      reservationFor_of_beyond⟩
    exact hCompiled.still_elements fuel hFunction hStep _ _ _ _

end Compiled

namespace Sample

/-- The place of the items in a batch. -/
def itemsPlace : FieldLayout := ⟨6, 4, 2, 1, none⟩

/-- The entry point of a batch. -/
def batchPoint : EntryPoint := (program.entryPoint? "chreTestBatch").getD default

/-- Two items behind a packed batch. -/
theorem items_reserved_alike :
    batchPoint.Declares 12 12 ∧
    encoder.encodeInto "chreTestBatch" value buffer =
      encoder.encodeFrom 12 batchPoint 12 convertBatch value buffer ∧
    ∃ final, CStmt.runAll ⟨2, 2, 20⟩ storeStatements ⟨0, 0, 12, false⟩ = some final ∧
      (encoder.step (encoder.run 2) "chreTestBatch" (some value) 0
        (.varLen "items" "count" (.record itemRef)
          (.record "chreTestItem" "chppTestConvertItemFromChre" false))).Follows
        ⟨true, 12, 4, 16⟩ 6
        (encoder.elementCopies (encoder.run 2) "items" 2
          (.record "chreTestItem" "chppTestConvertItemFromChre" false)
          (fieldOf (some value) "items") 12 itemsPlace) ⟨buffer, 12⟩ ∧
      final.reservation = ⟨true, 12, 4, 16⟩ := by
  have hCompile : compile declarations index {} request = .ok encoder.program := compiles
  have hFacts :
      convertBatch ∈ encoder.program.encodeFunctions ∧ convertBatch.source = "chreTestBatch" ∧
      .varLen "items" "count" (.record itemRef)
        (.record "chreTestItem" "chppTestConvertItemFromChre" false) ∈ convertBatch.steps ∧
      (encoder.fieldLayout convertBatch.source "items").toOption = some itemsPlace ∧
      (encoder.prepare "chreTestBatch" buffer.size).toOption = some (batchPoint, 12, convertBatch) ∧
      batchPoint.varLen = true := by decide +kernel
  obtain ⟨hFunction, hSource, hItems, hPlace, hPrepare, hVarLen⟩ := hFacts
  have hMeets : encoder.Meets convertBatch.source "items" "count" (some value) ⟨2, 2, 20⟩
      ⟨0, 0, 12, false⟩ itemsPlace ⟨buffer, 12⟩ :=
    ⟨eq_ok_of_toOption hPlace, eq_ok_of_toOption (by decide +kernel), rfl, rfl, rfl, rfl⟩
  obtain ⟨hSeeds, hSteps⟩ := payload_reserved_alike hCompile
  obtain ⟨hDeclares, hInto, _⟩ :=
    hSeeds "chreTestBatch" buffer batchPoint 12 convertBatch (eq_ok_of_toOption hPrepare) hVarLen
      12 rfl
  obtain ⟨_, hArrays⟩ := hSteps convertBatch hFunction _ _ _ _ hItems
  obtain ⟨final, hRun, hFollows, hAlike, _⟩ := hArrays 2 _ 0 _ _ _ _ hMeets
  have hReserved : Encoder.reservationFor ⟨2, 2, 20⟩ 12 = ⟨true, 12, 4, 16⟩ := by decide +kernel
  refine ⟨hDeclares, hInto value, final, hRun, ?_, ?_⟩
  · rw [hSource, hReserved] at hFollows
    exact hFollows
  · rw [← hReserved]
    exact hAlike.2 fun _ _ => by decide +kernel

/-- A count that has more bits than the length of a descriptor, with the array it counts. -/
def blobs : Declarations :=
  Table.ofList
    [ ("chreTestBatch", ⟨.struct,
        [⟨"count", ⟨"uint32_t", .plain⟩⟩, ⟨"items", ⟨"const uint8_t", .pointer⟩⟩]⟩) ]

def blobIndex : DirectiveIndex :=
  ⟨[⟨"chreTestBatch", "items", .varLenArray "count"⟩]⟩

def blobProgram : Program := (compileWithin 20 blobs blobIndex {} request).getD default

def blobEncoder : Encoder :=
  ⟨blobProgram, (Layouts.ofProgram Primitives.standard blobProgram).toOption.getD Table.empty,
    Table.empty, payloadLimit⟩

def convertBlob : EncodeFunction := (blobProgram.encodeFunction? "chreTestBatch").getD default

/-- With room for all of 65537 bytes, the statements describe one of them, and the encoder
describes none. -/
theorem wrapped_length_differs :
    compile blobs blobIndex {} request = .ok blobEncoder.program ∧
      blobEncoder.IsFor blobProgram Primitives.standard ∧
      convertBlob ∈ blobEncoder.program.encodeFunctions ∧
      .varLen "items" "count" (.primitive "uint8_t") .scalar ∈ convertBlob.steps ∧
      blobEncoder.Meets convertBlob.source "items" "count" (some (.record [("count", .int 65537)]))
        ⟨65537, 1, 65545⟩ ⟨0, 0, 8, false⟩ ⟨4, 4, 1, 1, some .unsigned⟩
        ⟨Array.replicate 65545 0, 8⟩ ∧
      CStmt.runAll ⟨65537, 1, 65545⟩ storeStatements ⟨0, 0, 8, false⟩ = some ⟨8, 1, 9, true⟩ ∧
      (blobEncoder.step (blobEncoder.run 1) convertBlob.source
        (some (.record [("count", .int 65537)])) 0
        (.varLen "items" "count" (.primitive "uint8_t") .scalar)).Follows ⟨false, 0, 0, 8⟩ 4
        (blobEncoder.elementCopies (blobEncoder.run 1) "items" 65537 .scalar none 8
          ⟨4, 4, 1, 1, some .unsigned⟩)
        ⟨Array.replicate 65545 0, 8⟩ := by
  have hFacts :
      convertBlob ∈ blobEncoder.program.encodeFunctions ∧
      .varLen "items" "count" (.primitive "uint8_t") .scalar ∈ convertBlob.steps ∧
      (blobEncoder.fieldLayout convertBlob.source "items").toOption =
        some ⟨4, 4, 1, 1, some .unsigned⟩ := by decide +kernel
  obtain ⟨hFunction, hItems, hPlace⟩ := hFacts
  have hMeets : blobEncoder.Meets convertBlob.source "items" "count"
      (some (.record [("count", .int 65537)])) ⟨65537, 1, 65545⟩ ⟨0, 0, 8, false⟩
      ⟨4, 4, 1, 1, some .unsigned⟩ ⟨Array.replicate 65545 0, 8⟩ :=
    ⟨eq_ok_of_toOption hPlace, eq_ok_of_toOption (by decide +kernel), rfl, Array.size_replicate, rfl,
      rfl⟩
  have hBeyond : Encoder.reservationFor ⟨65537, 1, 65545⟩ 8 = ⟨false, 0, 0, 8⟩ :=
    reservationFor_of_beyond (by decide +kernel)
  refine ⟨compile_getD (by decide +kernel),
    Encoder.isFor_of_layouts (eq_ok_getD (by decide +kernel)), hFunction, hItems, hMeets,
    by decide +kernel, ?_⟩
  rw [← hBeyond]
  refine Encoder.step_follows hMeets (Encode.still_elements (fun item pos => ?_) _ _ _ _)
    (.primitive "uint8_t") 0
  exact Encode.still_scalar _ _ _ _ _

end Sample

end WireSchema
