import WireSchema.Proofs.EncodedSize
import WireSchema.Proofs.SafeExecution
import WireSchema.Proofs.Visits

/-!
# Size functions and encode functions agree

A size function counts, and an encode function stores, the same arrays: both take the
length from the same field of the same record, and the size of an element from the same
place.  An encode run may fall behind only where an array does not fit.

`Advance` compares the two for one part of a run: how far the cursor could move, how far
it did, and that the difference is due to arrays that were not stored.

## Main results

* `Encoder.varLen_advance`: one array.
* `Encoder.step_advance`, `Encoder.run_advance`: one step, and all steps of a function.
* `sizes_agree`: encoded sizes against what is written.
-/

namespace WireSchema

/-! ## Descriptors in a buffer -/

theorem uint16At?_of_bytes {buffer : Array UInt8} {pos word : Nat} (hWord : word ≤ payloadLimit)
    (hLow : buffer[pos]? = some (byteAt word 0)) (hHigh : buffer[pos + 1]? = some (byteAt word 1)) :
    uint16At? buffer pos = some word := by
  unfold uint16At?
  rw [hLow, hHigh]
  dsimp only
  rw [Option.some.injEq, byteAt, byteAt, UInt8.toNat_ofNat', UInt8.toNat_ofNat',
    Nat.shiftRight_eq_div_pow, Nat.shiftRight_eq_div_pow]
  unfold payloadLimit at hWord
  omega

/-- A descriptor that is in the buffer byte for byte can be read back. -/
theorem descriptorAt?_of_bytes {buffer : Array UInt8} {pos offset length : Nat}
    (hOffset : offset ≤ payloadLimit) (hLength : length ≤ payloadLimit)
    (h : ∀ k < descriptorSize,
      buffer[pos + k]? = (leBytes 2 offset ++ leBytes 2 length)[k]?) :
    descriptorAt? buffer pos = some (offset, length) := by
  have hFirst : uint16At? buffer pos = some offset :=
    uint16At?_of_bytes hOffset (h 0 (by decide)) (h 1 (by decide))
  have hSecond : uint16At? buffer (pos + 2) = some length :=
    uint16At?_of_bytes hLength (h 2 (by decide)) (h 3 (by decide))
  unfold descriptorAt?
  rw [hFirst, hSecond]

/-! ## Advances of the cursor -/

/-- The cursor moves by at most `demand`, and by all of it if that fits or if, and only if, what
was to be stored is complete. -/
structure Advance (demand : Nat) (complete : Prop) (before after : Output) : Prop where
  le : after.cursor ≤ before.cursor + demand
  fits : before.cursor + demand ≤ min before.buffer.size payloadLimit →
    after.cursor = before.cursor + demand
  complete_iff : after.cursor = before.cursor + demand ↔ complete

theorem Advance.still {complete : Prop} (h : complete) {before after : Output}
    (hCursor : after.cursor = before.cursor) : Advance 0 complete before after :=
  ⟨by omega, fun _ => hCursor, iff_of_true hCursor h⟩

theorem Advance.trans {demand more : Nat} {complete finished : Prop}
    {before middle after : Output} (h : Advance demand complete before middle)
    (h' : Advance more finished middle after)
    (hSize : middle.buffer.size = before.buffer.size) :
    Advance (demand + more) (complete ∧ finished) before after where
  le := by
    have hFirst := h.le
    have hSecond := h'.le
    omega
  fits hFits := by
    have hFirst := h.fits (by omega)
    have hSecond := h'.fits (by rw [hSize]; omega)
    omega
  complete_iff := by
    rw [← h.complete_iff, ← h'.complete_iff]
    have hFirst := h.le
    have hSecond := h'.le
    omega

theorem Advance.congr {demand : Nat} {complete finished : Prop} {before after : Output}
    (h : Advance demand complete before after) (hIff : complete ↔ finished) :
    Advance demand finished before after :=
  ⟨h.le, h.fits, h.complete_iff.trans hIff⟩

namespace Encoder

variable {encoder : Encoder} {primitives : Primitives} {call : EncodeCall} {final : Array UInt8}

/-- What is kept of payload is in the buffer. -/
theorem Kept.le_size {pos size : Nat} {before after : Output} (h : Kept pos size before after final)
    (hMoved : before.cursor < after.cursor) (hBound : after.cursor ≤ after.buffer.size) :
    after.cursor ≤ final.size := by
  have hLast := h (after.cursor - 1) (.inr (by omega))
  rw [Array.getElem?_eq_getElem (by omega : after.cursor - 1 < after.buffer.size)] at hLast
  have hThere := (Array.getElem?_eq_some_iff.1 hLast).1
  omega

/-- The descriptor of an array that is not stored. -/
theorem descriptorAt?_of_zero {pos : Nat} {out after : Output}
    (hRoom : pos + descriptorSize ≤ out.buffer.size)
    (hRun : Encode.storeDescriptor pos 0 0 out = .ok () after)
    (hKept : Kept pos descriptorSize out after final) : descriptorAt? final pos = some (0, 0) := by
  rw [Encode.storeDescriptor_eq _ _ hRoom] at hRun
  obtain rfl := (EStateM.Result.ok.inj hRun).2
  refine descriptorAt?_of_bytes (by decide) (by decide) fun k hk => ?_
  rw [hKept (pos + k) (.inl (by omega))]
  dsimp only
  exact getElem?_storeDescriptor hRoom hk

/-- The descriptor of an array whose elements are stored behind it. -/
theorem descriptorAt?_of_reserve {pos length : Nat} {out after : Output}
    (hRoom : pos + descriptorSize ≤ out.buffer.size) (hBehind : pos + descriptorSize ≤ out.cursor)
    (hBound : out.cursor + length ≤ payloadLimit)
    (hElements : Frame out.cursor length false (out.reserve pos length) after)
    (hKept : Kept pos descriptorSize out after final) :
    descriptorAt? final pos = some (out.cursor, length) := by
  refine descriptorAt?_of_bytes (by omega) (by omega) fun k hk => ?_
  rw [hKept (pos + k) (.inl (by omega)),
    hElements.outside (pos + k) (.inl (by omega)) (by rw [hElements.still rfl]; omega)]
  exact Output.getElem?_reserve hRoom hk

/-- An array moves the cursor by its bytes and has a descriptor that says where they are,
unless they do not fit and the descriptor is zero. -/
theorem varLen_advance {copy : Copy}
    (hCalls : encoder.Calls (encoder.CallSafe primitives call) copy)
    {layout : FieldLayout} (hFits : encoder.CopyFits layout.element copy)
    (hFixed : copy.varLen = false) (hHolds : layout.Holds primitives)
    {field : String} {count : Nat} {items : Option Value} {pos : Nat} {out after : Output}
    (hRoom : pos + descriptorSize ≤ out.buffer.size)
    (hRun : encoder.varLen call field count copy items pos layout out = .ok () after)
    (hKept : Kept pos descriptorSize out after final) (hClear : Clear (pos + descriptorSize) out) :
    Advance (count * layout.elementSize)
        (0 < count * layout.elementSize → descriptorAt? final pos ≠ some (0, 0)) out after ∧
      (descriptorAt? final pos = some (0, 0) ∨
        ∃ start, descriptorAt? final pos = some (start, count * layout.elementSize) ∧
          start + count * layout.elementSize ≤ final.size) := by
  cases hReserve : reservation? count layout.elementSize out.cursor out.buffer.size with
  | none =>
      have hNot := reservation?_eq_none hReserve
      rw [varLen_of_none hReserve] at hRun
      have hZero := descriptorAt?_of_zero hRoom hRun hKept
      rw [Encode.storeDescriptor_eq _ _ hRoom] at hRun
      obtain rfl := (EStateM.Result.ok.inj hRun).2
      refine ⟨⟨by dsimp only; omega, fun hEnough => by dsimp only; omega, ?_⟩, .inl hZero⟩
      rw [hZero]
      dsimp only
      constructor
      · intro hEq hPos
        omega
      · intro hStored
        by_contra hNe
        exact hStored (by omega) rfl
  | some length =>
      obtain ⟨rfl, hPos, hBound⟩ := reservation?_eq_some hReserve
      rw [varLen_of_some hReserve hRoom] at hRun
      have hElements := (safe_elementCopies hCalls hFits hFixed hHolds field count items
        hBound).frame_of_ok hRun
      have hCursor : after.cursor = out.cursor + count * layout.elementSize :=
        hElements.still rfl
      have hStored : descriptorAt? final pos = some (out.cursor, count * layout.elementSize) :=
        descriptorAt?_of_reserve hRoom (hClear.resolve_right (by omega)) (by omega) hElements hKept
      have hSize := hElements.size_eq
      rw [Output.size_reserve] at hSize
      have hInside := hKept.le_size (by omega) (by omega)
      refine ⟨⟨by omega, fun _ => hCursor, iff_of_true hCursor fun _ => ?_⟩,
        .inr ⟨_, hStored, by omega⟩⟩
      rw [hStored]
      simp only [ne_eq, Option.some.injEq, Prod.mk.injEq, not_and]
      omega

/-! ## One step -/

/-- Runs of the function move the cursor as its size function says. -/
def CallCounts (encoder : Encoder) (call : EncodeCall) (height : Nat) (final : Array UInt8)
    (function : EncodeFunction) : Prop :=
  function.varLen = true → ∀ size, encoder.staticSize function.source = .ok size →
    ∀ value base out after, call function value base out = .ok () after →
    base + size ≤ out.buffer.size → out.buffer.size ≤ sizeLimit → Clear (base + size) out →
    Kept base size out after final →
    ∃ demand,
      (∀ fuel, height ≤ fuel → encoder.dynamicSize fuel function.source value =
        .ok (min (size + demand) sizeLimit)) ∧
      Advance demand (encoder.Complete final ⟨function, value, base⟩) out after ∧
      encoder.Settled final ⟨function, value, base⟩

/-- In a size function, the term brings a sum from `size` up by `demand`. -/
def Contributes (encoder : Encoder) (height : Nat) (source : String) (value : Option Value)
    (size demand : Nat) : Option SizeTerm → Prop
  | none => demand = 0
  | some term =>
    ∀ fuel, height ≤ fuel → ∃ more,
      encoder.termSize (encoder.dynamicSize fuel) source value term = .ok more ∧
        ∀ sum, addSizes (min (size + sum) sizeLimit) more = min (size + (sum + demand)) sizeLimit

section Step

variable {height size : Nat} {visit : Visit} {layout : FieldLayout} {out after : Output}

/-- A copied record moves the cursor as the nested term of its member says. -/
theorem assign_advance {field source name target function : String}
    (hCalls : encoder.Calls (encoder.CallCounts call height final) (.record source name true))
    (hLayout : encoder.fieldLayout visit.function.source field = .ok layout)
    (hFits : encoder.CopyFits layout (.record source name true))
    (hRoom : visit.base + layout.offset + layout.size ≤ out.buffer.size)
    (hLimit : out.buffer.size ≤ sizeLimit) (hWhole : layout.size ≤ size) (hSize : size ≤ sizeLimit)
    (hRun : encoder.assign call (.record source name true) field (fieldOf visit.input field)
      (visit.base + layout.offset) layout out = .ok () after)
    (hKept : Kept (visit.base + layout.offset) layout.size out after final)
    (hClear : Clear (visit.base + layout.offset + layout.size) out) :
    ∃ demand,
      encoder.Contributes height visit.function.source visit.input size demand
        (some (.nested field source target function)) ∧
      Advance demand (encoder.StepComplete final visit (.assign field (.record source name true)))
        out after ∧
      encoder.StepSettled final visit (.assign field (.record source name true)) := by
  obtain ⟨hStatic, hPlace⟩ := hFits
  obtain ⟨callee, hCallee, hVarLen, hCounts⟩ := hCalls source rfl
  rw [assign_record hCallee] at hRun
  have hSource := source_of_encodeFunction hCallee
  rw [hPlace] at hRoom hKept hClear hWhole
  obtain ⟨demand, hDynamic, hAdvance, hSettled⟩ := hCounts hVarLen layout.elementSize
    (hSource ▸ hStatic) _ _ _ _ hRun hRoom hLimit hClear hKept
  have hEnters : ∀ next,
      encoder.StepEnters final visit (.assign field (.record source name true)) next ↔
        next = ⟨callee, fieldOf visit.input field, visit.base + layout.offset⟩ := by
    refine fun next => ⟨fun hNext => ?_, ?_⟩
    · cases hNext with
      | assign hOther hEnters =>
          rw [hLayout] at hOther
          cases hOther
          cases hEnters with
          | record hOther =>
              rw [hCallee] at hOther
              cases hOther
              rfl
    · rintro rfl
      exact .assign hLayout (.record hCallee)
  refine ⟨demand, fun fuel hFuel => ?_, hAdvance.congr ⟨fun hComplete => ?_, fun hStep => ?_⟩,
    .inr trivial, fun next hNext => (hEnters next).1 hNext ▸ hSettled⟩
  · rw [hSource] at hDynamic
    refine ⟨min (layout.elementSize + demand) sizeLimit - layout.elementSize, ?_, fun sum => ?_⟩
    · exact bind_eq_ok.2 ⟨_, hDynamic fuel hFuel, bind_eq_ok.2 ⟨_, hStatic, rfl⟩⟩
    · unfold addSizes
      omega
  · exact ⟨id, fun next hNext => (hEnters next).1 hNext ▸ hComplete⟩
  · exact hStep.2 _ ((hEnters _).2 rfl)

/-- A variable-length array moves the cursor as its term says. -/
theorem varLen_step_advance {field lengthField : String} {element : Representation} {copy : Copy}
    (hCalls : encoder.Calls (encoder.CallSafe primitives call) copy)
    (hReady : encoder.Calls (encoder.Ready primitives height) copy)
    (hLayout : encoder.fieldLayout visit.function.source field = .ok layout)
    (hHolds : layout.Holds primitives) (hPlace : layout.size = descriptorSize)
    (hFits : encoder.CopyFits layout.element copy) (hFixed : copy.varLen = false)
    (hRoom : visit.base + layout.offset + layout.size ≤ out.buffer.size) (hSize : size ≤ sizeLimit)
    {count : Nat} (hCount : lengthOf visit.input lengthField = .ok count)
    (hRun : encoder.varLen call field count copy (fieldOf visit.input field)
      (visit.base + layout.offset) layout out = .ok () after)
    (hKept : Kept (visit.base + layout.offset) layout.size out after final)
    (hClear : Clear (visit.base + layout.offset + layout.size) out) :
    encoder.Contributes height visit.function.source visit.input size (count * layout.elementSize)
        (some (.varLen field lengthField element)) ∧
      Advance (count * layout.elementSize)
        (encoder.StepComplete final visit (.varLen field lengthField element copy)) out after ∧
      encoder.StepSettled final visit (.varLen field lengthField element copy) := by
  rw [hPlace] at hRoom hKept hClear
  obtain ⟨hAdvance, hDescriptor⟩ :=
    varLen_advance hCalls hFits hFixed hHolds hRoom hRun hKept hClear
  -- The elements are of fixed size, so nothing below the array is in question.
  have hBelow : ∀ holds : Visit → Step → Prop,
      (∀ visit step, step.movesCursor = false → holds visit step) →
      ∀ next, encoder.StepEnters final visit (.varLen field lengthField element copy) next →
        encoder.Throughout final holds next := by
    intro holds hStill next hNext
    obtain ⟨made, hMade, source, hSource, hFunction⟩ := hNext.callee
    obtain rfl := List.mem_singleton.1 hMade
    obtain ⟨callee, hCallee, hVarLen, hCalleeReady⟩ := hReady source hSource
    rw [hFunction] at hCallee
    cases hCallee
    exact throughout_of_fixed hStill hCalleeReady (hVarLen.trans hFixed)
  have hDegrades : encoder.Degrades final visit (.varLen field lengthField element copy) ↔ _ :=
    degrades_varLen_iff hLayout hCount element copy
  have hStores : encoder.Stores final visit (.varLen field lengthField element copy) ↔ _ :=
    stores_varLen_iff hLayout hCount element copy
  refine ⟨fun fuel _ => ⟨sizeOfElements count layout.elementSize, ?_, fun sum => ?_⟩,
    hAdvance.congr ⟨fun hStored => ⟨?_, hBelow _ fun _ _ => not_degrades⟩, fun hStep => ?_⟩,
    ?_, hBelow _ fun _ _ hStill => .inr (stores_of_still hStill)⟩
  · exact bind_eq_ok.2 ⟨_, hLayout, bind_eq_ok.2 ⟨_, hCount, rfl⟩⟩
  · unfold addSizes sizeOfElements
    omega
  · dsimp only
    rw [hDegrades]
    exact fun hBoth => hStored hBoth.1 hBoth.2
  · exact fun hPos hZero => hStep.1 (hDegrades.2 ⟨hPos, hZero⟩)
  · dsimp only
    rw [hDegrades, hStores]
    by_cases hPos : 0 < count * layout.elementSize
    · exact hDescriptor.imp (fun hZero => ⟨hPos, hZero⟩) fun hStored _ => hStored
    · exact .inr fun hSome => absurd hSome hPos

/-- All that is known of the functions that a ready function calls. -/
def CallAgrees (encoder : Encoder) (primitives : Primitives) (call : EncodeCall) (height : Nat)
    (final : Array UInt8) (function : EncodeFunction) : Prop :=
  encoder.Ready primitives height function ∧ encoder.CallSafe primitives call function ∧
    encoder.CallCounts call height final function

/-- A constant in the place of a record cannot be written. -/
theorem fixedScalar_not_ok {source field : String} {input : Option Value} {base : Nat}
    {value : Literal} (hLayout : encoder.fieldLayout source field = .ok layout)
    (hScalar : layout.scalar = none)
    (hRoom : base + layout.offset + layout.elementSize ≤ out.buffer.size) :
    encoder.step call source input base (.fixedScalar field value) out ≠ .ok () after := by
  intro hRun
  rw [Encoder.step, Step.field, Encode.lift_bind_of_ok hLayout] at hRun
  obtain ⟨n, _, hWrite⟩ := Encode.lift_bind_ok.1 hRun
  obtain ⟨bytes, hBytes, _⟩ := (Encode.scalar_ok hRoom).1 hWrite
  rw [hScalar] at hBytes
  cases hBytes

/-- A step moves the cursor as its part of the size function says. -/
theorem step_advance {step : Step} {part : Option SizeTerm}
    (hCalls : ∀ copy ∈ step.copies,
      encoder.Calls (encoder.CallAgrees primitives call height final) copy)
    (hLayout : encoder.fieldLayout visit.function.source step.field = .ok layout)
    (hHolds : layout.Holds primitives) (hFits : encoder.StepFits primitives layout part step)
    (hRoom : visit.base + layout.offset + layout.size ≤ out.buffer.size)
    (hLimit : out.buffer.size ≤ sizeLimit) (hWhole : layout.size ≤ size) (hSize : size ≤ sizeLimit)
    (hRun : encoder.step call visit.function.source visit.input visit.base step out = .ok () after)
    (hKept : Kept (visit.base + layout.offset) layout.size out after final)
    (hClear : Clear (visit.base + layout.offset + layout.size) out) :
    ∃ demand, encoder.Contributes height visit.function.source visit.input size demand part ∧
      Advance demand (encoder.StepComplete final visit step) out after ∧
      encoder.StepSettled final visit step := by
  have hSafe : ∀ copy ∈ step.copies, encoder.Calls (encoder.CallSafe primitives call) copy :=
    fun copy hCopy => (hCalls copy hCopy).imp fun _ hAgrees => hAgrees.2.1
  have hReady : ∀ copy ∈ step.copies, encoder.Calls (encoder.Ready primitives height) copy :=
    fun copy hCopy => (hCalls copy hCopy).imp fun _ hAgrees => hAgrees.1
  cases part with
  | none =>
      have hFrame := (safe_step hSafe hLayout hHolds hFits visit.input hRoom).frame_of_ok hRun
      have hFixed : ∀ holds : Visit → Step → Prop,
          (∀ visit step, step.movesCursor = false → holds visit step) →
          encoder.StepThroughout final holds visit step :=
        fun _ hStill => stepThroughout_of_fixed hStill hFits hReady
          fun _ => throughout_of_fixed hStill
      exact ⟨0, rfl, .still (hFixed _ fun _ _ => not_degrades) (hFrame.still hFits.movesCursor),
        hFixed _ fun _ _ hStill => .inr (stores_of_still hStill)⟩
  | some term =>
      cases step with
      | fixedScalar field value =>
          obtain ⟨hPlain, hScalar⟩ := hFits
          rw [hPlain] at hRoom
          exact absurd hRun (fixedScalar_not_ok hLayout (hScalar (by simp)) hRoom)
      | fixedFill field value => cases hFits
      | assign field copy =>
          obtain ⟨hCopy, hPart⟩ := hFits
          rw [Encoder.step, Encode.lift_bind_of_ok hLayout] at hRun
          split at hPart
          · obtain ⟨target, function, hSome⟩ := hPart
            cases hSome
            have hCounts := (hCalls _ List.mem_cons_self).imp fun _ hAgrees => hAgrees.2.2
            exact assign_advance hCounts hLayout hCopy hRoom hLimit hWhole hSize hRun hKept
              hClear
          · cases hPart
      | varLen field lengthField element copy =>
          obtain ⟨hPlace, hCopy, hFixed, hPart⟩ := hFits
          cases hPart
          rw [Encoder.step, Encode.lift_bind_of_ok hLayout] at hRun
          obtain ⟨count, hCount, hArray⟩ := Encode.lift_bind_ok.1 hRun
          exact ⟨_, varLen_step_advance (hSafe _ List.mem_cons_self) (hReady _ List.mem_cons_self)
            hLayout hHolds hPlace hCopy hFixed hRoom hSize hCount hArray hKept hClear⟩
      | union field record discriminator arms => cases hFits.1

end Step

/-! ## All steps -/

section Steps

variable {height : Nat}

/-- The terms of a size function, one step at a time. -/
theorem addTerms_parts {source : String} {input : Option Value} {size demand more sum fuel : Nat}
    {part : Option SizeTerm} {parts : List (Option SizeTerm)}
    (hPart : encoder.Contributes height source input size demand part)
    (hParts : ∀ sum, encoder.addTerms (encoder.dynamicSize fuel) source input
      (min (size + sum) sizeLimit) (parts.filterMap id) =
        .ok (min (size + (sum + more)) sizeLimit)) (hFuel : height ≤ fuel) :
    encoder.addTerms (encoder.dynamicSize fuel) source input (min (size + sum) sizeLimit)
      ((part :: parts).filterMap id) = .ok (min (size + (sum + (demand + more))) sizeLimit) := by
  cases part with
  | none =>
      obtain rfl : demand = 0 := hPart
      rw [List.filterMap_cons_none (by rfl), hParts, Nat.zero_add]
  | some term =>
      obtain ⟨added, hTerm, hAdds⟩ := hPart fuel hFuel
      rw [List.filterMap_cons_some (show id (some term) = some term from rfl)]
      refine addTerms_cons.2 ⟨added, hTerm, ?_⟩
      rw [hAdds, hParts, Nat.add_assoc]

theorem steps_advance (visit : Visit) {offset size : Nat} {steps : List Step}
    {parts : List (Option SizeTerm)}
    (hTiles : encoder.Tiles primitives visit.function.source offset steps parts size)
    (hCalls : ∀ step ∈ steps, ∀ copy ∈ step.copies,
      encoder.Calls (encoder.CallAgrees primitives call height final) copy)
    {out after : Output} (hRoom : visit.base + size ≤ out.buffer.size)
    (hLimit : out.buffer.size ≤ sizeLimit)
    (hRun : steps.forM (encoder.step call visit.function.source visit.input visit.base) out =
      .ok () after)
    (hKept : Kept (visit.base + offset) (size - offset) out after final)
    (hClear : Clear (visit.base + size) out) :
    ∃ demand,
      (∀ fuel, height ≤ fuel → ∀ sum,
        encoder.addTerms (encoder.dynamicSize fuel) visit.function.source visit.input
          (min (size + sum) sizeLimit) (parts.filterMap id) =
            .ok (min (size + (sum + demand)) sizeLimit)) ∧
      Advance demand (∀ step ∈ steps, encoder.StepComplete final visit step) out after ∧
      ∀ step ∈ steps, encoder.StepSettled final visit step := by
  induction hTiles generalizing out with
  | nil =>
      cases hRun
      exact ⟨0, fun _ _ _ => rfl, .still (by simp) rfl, by simp⟩
  | @cons offset size step steps part parts layout hLayout hOffset hHolds hFits hRest ih =>
      have hLe := hRest.le
      obtain ⟨_, mid, hStep, hSteps⟩ := Encode.bind_ok.1 hRun
      have hSafe : ∀ step' ∈ step :: steps, ∀ copy ∈ step'.copies,
          encoder.Calls (encoder.CallSafe primitives call) copy :=
        fun _ hMem copy hCopy => (hCalls _ hMem copy hCopy).imp fun _ hAgrees => hAgrees.2.1
      obtain ⟨hFirst, hSecond⟩ := frames_of_steps hLayout hHolds hFits hRest hSafe (by omega)
        (by omega) hStep hSteps
      have hSizeEq := hFirst.size_eq
      have hCursor := hFirst.cursor_le
      obtain ⟨demand, hPart, hAdvance, hSettled⟩ := step_advance
        (hCalls step List.mem_cons_self) hLayout hHolds
        hFits (by omega) hLimit (by omega : layout.size ≤ size) (by omega) hStep
        ((hOffset ▸ hKept).first hFirst hSecond (hClear.mono (by omega)) (by omega) (by omega))
        (hClear.mono (by omega))
      obtain ⟨more, hParts, hAdvances, hRestSettled⟩ :=
        ih (fun _ hMem => hCalls _ (List.mem_cons_of_mem _ hMem))
        (by omega) (by omega) hSteps (hKept.second hCursor (by omega) (by omega))
        (hClear.of_frame hFirst)
      refine ⟨demand + more, fun fuel hFuel sum => addTerms_parts hPart (hParts fuel hFuel) hFuel,
        (hAdvance.trans hAdvances hSizeEq).congr List.forall_mem_cons.symm,
        List.forall_mem_cons.2 ⟨hSettled, hRestSettled⟩⟩

/-- **Size functions count what encode functions store**: for a run of a ready function. -/
theorem run_advance {function : EncodeFunction} (h : encoder.Ready primitives height function)
    {fuel : Nat} (hFuel : height ≤ fuel) :
    encoder.CallCounts (encoder.run fuel) height final function := by
  induction height generalizing function fuel with
  | zero => exact h.elim
  | succ height ih =>
      obtain ⟨fuel, rfl⟩ : ∃ k, fuel = k + 1 := ⟨fuel - 1, by omega⟩
      obtain ⟨⟨size, parts, hSize, hTiles, _, hTerms⟩, hCalls⟩ := h
      intro hVarLen given hGiven value base out after hCall hRoom hLimit hClear hKept
      rw [hSize] at hGiven
      cases hGiven
      obtain ⟨sizes, hSizes, hFiltered⟩ := hTerms hVarLen
      obtain ⟨demand, hAdds, hAdvance, hSettled⟩ := steps_advance ⟨function, value, base⟩ hTiles
        (fun step hStep copy hCopy => (hCalls step hStep copy hCopy).imp fun callee hReady =>
          ⟨hReady, safe_run hReady (by omega), ih hReady (by omega)⟩)
        hRoom hLimit (steps_of_run hCall).2 hKept hClear
      refine ⟨demand, fun count hCount => ?_,
        hAdvance.congr ⟨fun h => throughout_iff.2 h, fun h => throughout_iff.1 h⟩,
        throughout_iff.2 hSettled⟩
      obtain ⟨count, rfl⟩ : ∃ k, count = k + 1 := ⟨count - 1, by omega⟩
      refine dynamicSize_eq_ok.2 ⟨size, hSize, ?_⟩
      rw [hSizes]
      have hSum := hAdds count (by omega) 0
      rw [← hFiltered, Nat.zero_add, Nat.add_zero, Nat.min_eq_left (by omega)] at hSum
      exact hSum

end Steps

/-- The visit that encoding a root starts with. -/
def Starts (encoder : Encoder) (root : String) (value : Value) (start : Visit) : Prop :=
  ∃ point, encoder.program.entryPoint? root = some point ∧
    encoder.encodeFunction point.source = .ok start.function ∧ start.input = some value ∧
    start.base = 0

end Encoder

section Deployed

variable {declarations : Declarations} {request : Request} {naming : Naming}
  {encoder : Encoder} {primitives : Primitives}

/-- Enough fuel has no influence on the size of a variable-length root. -/
theorem Deployed.encodedSize_eq (h : Deployed declarations request naming encoder primitives)
    {root : String} {size needed : Nat} {point : EntryPoint} {function : EncodeFunction}
    (hPrepared : encoder.Prepared primitives root size point needed function)
    (hVarLen : function.varLen = true) (value : Value) {fuel : Nat}
    (hFuel : encoder.program.sizeFunctions.length ≤ fuel) :
    encoder.encodedSize root value = encoder.dynamicSize fuel function.source (some value) := by
  have hSized := h.compiled.sized h.layouts h.fields (hPrepared.ready.exists_sizeFunction hVarLen)
  rw [hPrepared.encodedSize_of_varLen hVarLen, Encoder.dynamicSize_fuel hSized (by omega),
    Encoder.dynamicSize_fuel hSized hFuel]

/-- How far encoding into a buffer gets, against the encoded size. -/
theorem Deployed.stop_of_encodeInto (h : Deployed declarations request naming encoder primitives)
    {root : String} {value : Value} {buffer after : Array UInt8} {stop : Nat}
    (hBuffer : buffer.size < sizeLimit)
    (hInto : encoder.encodeInto root value buffer = (.ok stop, after)) :
    ∃ start needed size, encoder.Starts root value start ∧
      encoder.staticSize start.function.source = .ok needed ∧
      encoder.encodedSize root value = .ok size ∧ after.size = buffer.size ∧
      needed ≤ stop ∧ stop ≤ size ∧
      (stop = size ↔ encoder.Complete after start) ∧ encoder.Settled after start ∧
      (size ≤ min buffer.size payloadLimit → stop = size) := by
  obtain ⟨point, needed, function, out, hPrepared, hRun, hFrame, rfl, rfl⟩ :=
    h.run_of_encodeInto hInto
  have hStarts : encoder.Starts root value ⟨function, some value, 0⟩ :=
    ⟨point, hPrepared.entry, hPrepared.encodes, rfl, rfl⟩
  cases hCase : function.varLen with
  | false =>
      have hFixed : ∀ holds : Visit → Step → Prop,
          (∀ visit step, step.movesCursor = false → holds visit step) →
          encoder.Throughout out.buffer holds ⟨function, some value, 0⟩ :=
        fun _ hStill => Encoder.throughout_of_fixed hStill hPrepared.ready hCase
      have hStop : max out.cursor needed = needed := by
        have hStill := hFrame.still hCase
        dsimp only at hStill
        omega
      rw [hStop]
      exact ⟨_, needed, needed, hStarts, hPrepared.static,
        hPrepared.encodedSize_of_fixed hCase value, hFrame.size_eq, Nat.le_refl _, Nat.le_refl _, iff_of_true rfl (hFixed _ fun _ _ => Encoder.not_degrades),
        hFixed _ fun _ _ hStill => .inr (Encoder.stores_of_still hStill), fun _ => rfl⟩
  | true =>
      have hRoom := hPrepared.room
      obtain ⟨demand, hCounts, hAdvance, hSettled⟩ := Encoder.run_advance hPrepared.ready
        (encoder.length_le_callLimit value _) hCase needed hPrepared.static (some value) 0 _ _
        hRun (by simpa using hRoom) (Nat.le_of_lt hBuffer)
        (show Encoder.Clear (0 + needed) ⟨buffer, min needed payloadLimit⟩ by
          unfold Encoder.Clear
          dsimp only
          omega)
        (fun _ _ => rfl)
      have hEncoded : encoder.encodedSize root value = .ok (min (needed + demand) sizeLimit) :=
        (h.encodedSize_eq hPrepared hCase value (Nat.le_max_right _ _)).trans
          (hCounts _ (Nat.le_max_left _ _))
      have hBound := hFrame.cursor_bound
      have hLe := hFrame.cursor_le
      have hMoved := hAdvance.le
      have hFits := hAdvance.fits
      have hLimits : payloadLimit < sizeLimit := by decide
      dsimp only at hBound hLe hMoved hFits
      refine ⟨_, needed, _, hStarts, hPrepared.static, hEncoded, hFrame.size_eq,
        Nat.le_max_right _ _, by omega, ?_, hSettled, by omega⟩
      rw [← hAdvance.complete_iff]
      dsimp only
      omega

/-- **Size functions and encode functions agree**: for an encoder of a compiled program
without mixed directives, with any table of primitive types that lays it out.

Encoding into a buffer of an addressable size that succeeds ends at or behind the packed
type and not behind the encoded size, and at the encoded size exactly if no array with
bytes to store has a zero descriptor, at any depth.  An array whose descriptor is not zero
is stored.  A buffer and descriptors that can take the encoded size take all.  So nothing
is missing from what is encoded with a limit on allocations that the descriptors allow: it
is as long as its encoded size says, and has every array that is not empty. -/
theorem sizes_agree {index : DirectiveIndex} {settings : Settings} {program : Program}
    (hCompile : compile declarations index settings request = .ok program)
    (hFields : program.DistinctFields declarations) (hUnmixed : program.Unmixed declarations index)
    (hEncoder : encoder.IsFor program primitives) (root : String) (value : Value) :
    (∀ buffer stop after, buffer.size < sizeLimit →
      encoder.encodeInto root value buffer = (.ok stop, after) →
      ∃ start needed size, encoder.Starts root value start ∧
        encoder.staticSize start.function.source = .ok needed ∧
        encoder.encodedSize root value = .ok size ∧ needed ≤ stop ∧ stop ≤ size ∧
        (stop = size ↔ encoder.Complete after start) ∧ encoder.Settled after start ∧
        (size ≤ min buffer.size payloadLimit → stop = size ∧ encoder.Complete after start)) ∧
    (encoder.maxAllocation ≤ payloadLimit → ∀ bytes, encoder.encode root value = .ok bytes →
      encoder.encodedSize root value = .ok bytes.size ∧
        ∃ start, encoder.Starts root value start ∧
          encoder.Throughout bytes (encoder.Stores bytes) start) := by
  obtain ⟨naming, h⟩ := deployed_of_compile hCompile hFields hUnmixed hEncoder
  refine ⟨fun buffer stop after hBuffer hInto => ?_, fun hLimit bytes hEncode => ?_⟩
  · obtain ⟨start, needed, size, hStarts, hStatic, hSize, _, hLow, hHigh, hIff, hSettled, hFits⟩ :=
      h.stop_of_encodeInto hBuffer hInto
    exact ⟨start, needed, size, hStarts, hStatic, hSize, hLow, hHigh, hIff, hSettled,
      fun hRoom => ⟨hFits hRoom, hIff.1 (hFits hRoom)⟩⟩
  · obtain ⟨size, stop, hSize, hAllowed, hInto⟩ := Encoder.encode_eq_ok hEncode
    have hLimits : payloadLimit < sizeLimit := by decide
    have hLength : (Array.replicate size (0 : UInt8)).size = size := Array.size_replicate
    obtain ⟨start, needed, found, hStarts, _, hFound, hSame, _, _, hIff, hSettled, hFits⟩ :=
      h.stop_of_encodeInto (by omega) hInto
    rw [hSize] at hFound
    cases hFound
    rw [hLength] at hSame hFits
    exact ⟨hSame ▸ hSize, start, hStarts, hSettled.stores (hIff.1 (hFits (by omega)))⟩

end Deployed

namespace Sample

/-- The buffer after the sample was encoded into it. -/
def written : Array UInt8 := (encoder.encodeInto "chreTestBatch" value buffer).2

theorem encodeInto_buffer : encoder.encodeInto "chreTestBatch" value buffer = (.ok 16, written) :=
  Prod.ext (eq_ok_of_toOption (by decide +kernel)) rfl

theorem sizes : ∃ start needed size, encoder.Starts "chreTestBatch" value start ∧
    encoder.staticSize start.function.source = .ok needed ∧
    encoder.encodedSize "chreTestBatch" value = .ok size ∧ needed ≤ 16 ∧ 16 ≤ size ∧
    (16 = size ↔ encoder.Complete written start) ∧ encoder.Settled written start ∧
    (size ≤ min buffer.size payloadLimit → 16 = size ∧ encoder.Complete written start) :=
  (sizes_agree compiles distinctFields unmixed isFor "chreTestBatch" value).1 buffer 16 written
    (by decide) encodeInto_buffer

end Sample

end WireSchema
