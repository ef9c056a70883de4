import WireSchema.Proofs.SizeAgreement
import WireSchema.Proofs.StoredNumbers

/-!
# What an encoding shows of its value

A run writes each place once.  Later steps write behind it, and payload goes behind all
places, so what a visit has written is in the buffer at the end.  `Stays` says that of one
part of a run, with what it needs: the part has its place and the payload that is to come for
itself, and finds zeros there.

`Encoder.StepShown` says what the buffer shows of a step in the end, read at the place of its
visit: the bytes of its scalars, the descriptor of its array, and the scalars of the selected
member of its union.

## Main results

* `Stays.first`, `Stays.second`, `Stays.reserve`, `Stays.elements`: parts of a run.
* `Encoder.shows_step`, `Encoder.shows_run`: one step, and all steps of a function.
* `Deployed.shows_of_encode`: everything that encoding a root visits.
-/

namespace WireSchema

open Encoder (Kept)

/-! ## Parts of a run -/

/-- From `out` to `after`, a run has the `size` bytes from `pos` on for itself, and payload goes
behind them.  There and where payload may go are zeros before, and what it writes is in
`final`. -/
structure Stays (pos size : Nat) (out after : Output) (final : Array UInt8) : Prop where
  room : pos + size ≤ out.buffer.size
  behind : pos + size ≤ out.cursor
  fresh : ∀ i, (pos ≤ i ∧ i < pos + size) ∨ (out.cursor ≤ i ∧ i < out.buffer.size) →
    out.buffer[i]? = some 0
  kept : Kept pos size out after final

namespace Stays

variable {pos size pos' size' whole length : Nat} {varLen varLen' : Bool}
  {out before middle after : Output} {final : Array UInt8}

/-- The first of two runs. -/
theorem first (h : Stays pos whole before after final)
    (hFirst : Frame pos size varLen before middle) (hSecond : Frame pos' size' varLen' middle after)
    (hPos : pos + size ≤ pos') (hSize : pos' + size' ≤ pos + whole) :
    Stays pos size before middle final where
  room := by
    have hRoom := h.room
    omega
  behind := by
    have hBehind := h.behind
    omega
  fresh i hi := h.fresh i (by omega)
  kept := h.kept.first hFirst hSecond (.inl h.behind) hPos hSize

/-- The second of two runs. -/
theorem second (h : Stays pos whole before after final)
    (hFirst : Frame pos size varLen before middle) (hPos : pos + size ≤ pos')
    (hSize : pos' + size' ≤ pos + whole) : Stays pos' size' middle after final := by
  have hRoom := h.room
  have hBehind := h.behind
  have hSame := hFirst.size_eq
  have hCursor := hFirst.cursor_le
  refine ⟨by omega, by omega, fun i hi => ?_, h.kept.second hCursor (by omega) hSize⟩
  rw [hFirst.outside i (by omega) (by omega)]
  exact h.fresh i (by omega)

/-- The elements of an array, once its payload is reserved. -/
theorem reserve (h : Stays pos descriptorSize out after final)
    (hBound : out.cursor + length ≤ out.buffer.size)
    (hElements : Frame out.cursor length false (out.reserve pos length) after) :
    Stays out.cursor length (out.reserve pos length) after final := by
  have hBehind := h.behind
  have hStill := hElements.still rfl
  rw [Output.cursor_reserve] at hStill
  refine ⟨by rw [Output.size_reserve]; exact hBound, Nat.le_refl _, fun i hi => ?_, fun i hi => ?_⟩
  · rw [Output.cursor_reserve, Output.size_reserve] at hi
    -- The descriptor stands before the cursor.
    have hRoom := h.room
    have hSize : (leBytes 2 out.cursor ++ leBytes 2 length).length = descriptorSize := by
      rw [List.length_append, leBytes_length, leBytes_length]
      rfl
    rw [Output.reserve, getElem?_storeBytes _ _ _ _ (by omega), if_neg (by omega)]
    exact h.fresh i (by omega)
  · rw [Output.cursor_reserve] at hi
    exact h.kept i (by omega)

/-- What follows once the place is filled with zeros. -/
theorem zeroed (h : Stays pos size out after final) {less : Nat} (hLe : less ≤ size) :
    Stays pos less { out with buffer := storeBytes out.buffer pos (List.replicate size 0) } after
      final := by
  have hRoom := h.room
  have hBehind := h.behind
  refine ⟨by dsimp only; rw [size_storeBytes]; omega, by dsimp only; omega, fun i hi => ?_,
    fun i hi => h.kept i (by dsimp only at hi; omega)⟩
  dsimp only at hi ⊢
  rw [size_storeBytes] at hi
  rw [getElem?_storeBytes _ _ _ _ (by simpa using hRoom), List.length_replicate]
  by_cases hInside : pos ≤ i ∧ i < pos + size
  · rw [if_pos hInside, List.getElem?_replicate, if_pos (by omega)]
  · rw [if_neg hInside]
    exact h.fresh i (by omega)

/-- What is stored in the place is shown there. -/
theorem shown {bytes : List UInt8}
    (h : Stays pos size out { out with buffer := storeBytes out.buffer pos bytes } final)
    (hLength : bytes.length ≤ size) : Shown final pos size bytes := by
  intro i hi
  have hRoom := h.room
  rw [h.kept (pos + i) (.inl (by omega))]
  dsimp only
  rw [getElem?_storeBytes _ _ _ _ (by omega), List.getD_eq_getElem?_getD]
  by_cases hBytes : i < bytes.length
  · rw [if_pos (by omega), Nat.add_sub_cancel_left, List.getElem?_eq_getElem hBytes]
    rfl
  · rw [if_neg (by omega), h.fresh (pos + i) (.inl (by omega)),
      List.getElem?_eq_none (by omega)]
    rfl

/-- Each element of an array. -/
theorem elements {primitives : Primitives} {element : Option Value → Nat → Encode Unit}
    {P : Option Value → Nat → Prop}
    (hSafe : ∀ item pos out, pos + size ≤ out.buffer.size →
      Encode.Safe primitives (element item pos) pos size varLen out)
    (hEach : ∀ item pos out after, element item pos out = .ok () after →
      Stays pos size out after final → P item pos)
    {count : Nat} {items : List Value}
    (hRun : Encode.elements element size count items pos out = .ok () after)
    (h : Stays pos (size * count) out after final) :
    ∀ i < count, P items[i]? (pos + size * i) := by
  induction count generalizing items pos out with
  | zero => exact fun i hi => absurd hi (Nat.not_lt_zero i)
  | succ count ih =>
      have hRoom := h.room
      rw [Nat.mul_succ] at hRoom h
      obtain ⟨_, mid, hHead, hTail⟩ := Encode.bind_ok.1 hRun
      have hFirst := (hSafe items.head? pos out (by omega)).frame_of_ok hHead
      have hSame := hFirst.size_eq
      have hRest := (Encode.safe_elements (fun item pos out hItem _ => hSafe item pos out hItem)
        count items.tail (pos + size) mid (by omega) rfl).frame_of_ok hTail
      intro i hi
      cases i with
      | zero =>
          rw [Nat.mul_zero, Nat.add_zero, ← List.head?_eq_getElem?]
          exact hEach _ _ _ _ hHead (h.first hFirst hRest (by omega) (by omega))
      | succ i =>
          rw [← List.getElem?_tail, Nat.mul_succ, Nat.add_comm (size * i), ← Nat.add_assoc]
          exact ih hTail (h.second hFirst (by omega) (by omega)) i (by omega)

end Stays

namespace Encoder

variable {encoder : Encoder} {primitives : Primitives} {call : EncodeCall} {final : Array UInt8}

/-! ## What is shown -/

/-- The place of a scalar shows its bytes. -/
def ScalarShown (final : Array UInt8) (layout : FieldLayout) (field : String)
    (value : Option Value) (pos : Nat) : Prop :=
  ∃ bytes, scalarBytes layout.elementSize layout.scalar value field = .ok bytes ∧
    Shown final pos layout.elementSize bytes

/-- The place of a copy shows its scalars.  What a structure shows is left to its visit. -/
def CopyShown (final : Array UInt8) (layout : FieldLayout) (field : String) (value : Option Value)
    (pos : Nat) : Copy → Prop
  | .scalar => ScalarShown final layout field value pos
  | .array length =>
    ∀ i < length,
      ScalarShown final layout field (itemsOf value)[i]? (pos + layout.elementSize * i)
  | .record .. => True
  | .recordArray .. => True

/-- A variable-length array is shown by its descriptor at `pos`, which is zero or says where in
the buffer the elements are. -/
def ArrayShown (final : Array UInt8) (layout : FieldLayout) (field : String) (count : Nat)
    (items : Option Value) (pos : Nat) (copy : Copy) : Prop :=
  descriptorAt? final pos = some (0, 0) ∨
    ∃ start, descriptorAt? final pos = some (start, count * layout.elementSize) ∧
      ∀ i < count, CopyShown final layout.element field (itemsOf items)[i]?
        (start + layout.elementSize * i) copy

/-- A union is shown by the member that its discriminator selects. -/
def UnionShown (encoder : Encoder) (final : Array UInt8) (field : String) (record : RecordRef)
    (discriminator : String) (arms : List UnionArm) (input : Option Value) (pos : Nat) : Prop :=
  ∃ selector arm variant, integerOf (fieldOf input discriminator) discriminator = .ok selector ∧
    encoder.selectArm field selector arms = .ok arm ∧
    encoder.fieldLayout record.source arm.member = .ok variant ∧
    CopyShown final variant arm.member (fieldOf (fieldOf input field) arm.member)
      (pos + variant.offset) arm.copy

/-- What a step has written is in its place. -/
def StepShown (encoder : Encoder) (final : Array UInt8) (visit : Visit) (step : Step) : Prop :=
  ∃ layout, encoder.fieldLayout visit.function.source step.field = .ok layout ∧
    match step with
    | .fixedScalar field value =>
      ∃ n, encoder.valueOf value = .ok n ∧
        ScalarShown final layout field (some (.int n)) (visit.base + layout.offset)
    | .fixedFill _ value =>
      ∃ n, encoder.valueOf value = .ok n ∧
        Shown final (visit.base + layout.offset) layout.size
          (List.replicate layout.size (byteAt (wordOf n) 0))
    | .assign field copy =>
      CopyShown final layout field (fieldOf visit.input field) (visit.base + layout.offset) copy
    | .varLen field lengthField _ copy =>
      ∃ count, lengthOf visit.input lengthField = .ok count ∧
        ArrayShown final layout field count (fieldOf visit.input field)
          (visit.base + layout.offset) copy
    | .union field record discriminator arms =>
      encoder.UnionShown final field record discriminator arms visit.input
        (visit.base + layout.offset)

/-- What any visit from `start` on has written is in its place. -/
abbrev Shows (encoder : Encoder) (final : Array UInt8) : Visit → Prop :=
  encoder.Throughout final (encoder.StepShown final)

/-- Runs of the function are safe, and what they write is shown. -/
def CallShows (encoder : Encoder) (primitives : Primitives) (call : EncodeCall)
    (final : Array UInt8) (function : EncodeFunction) : Prop :=
  encoder.CallSafe primitives call function ∧
    ∀ size, encoder.staticSize function.source = .ok size → ∀ value base out after,
      call function value base out = .ok () after → Stays base size out after final →
      encoder.Shows final ⟨function, value, base⟩

/-! ## Copies -/

section Copies

variable {layout : FieldLayout} {field : String} {value : Option Value} {pos : Nat}
  {out after : Output}

theorem shows_scalar
    (hRun : Encode.scalar pos layout.elementSize layout.scalar value field out = .ok () after)
    (hStays : Stays pos layout.elementSize out after final) :
    ScalarShown final layout field value pos := by
  obtain ⟨bytes, hBytes, rfl⟩ := (Encode.scalar_ok hStays.room).1 hRun
  exact ⟨bytes, hBytes, hStays.shown (Encode.length_scalarBytes hBytes)⟩

/-- A copy is shown, and so is what it enters. -/
theorem shows_assign {copy : Copy}
    (hCalls : encoder.Calls (encoder.CallShows primitives call final) copy)
    (hFits : encoder.CopyFits layout copy) (hHolds : layout.Holds primitives)
    (hRun : encoder.assign call copy field value pos layout out = .ok () after)
    (hStays : Stays pos layout.size out after final) :
    CopyShown final layout field value pos copy ∧
      ∀ next, encoder.CopyEnters layout.elementSize value pos copy next →
        encoder.Shows final next := by
  cases copy with
  | scalar =>
      rw [hFits.2] at hStays
      exact ⟨shows_scalar hRun hStays, fun _ hNext => nomatch hNext⟩
  | array length =>
      rw [hFits.2] at hStays
      have hSafe : ∀ item pos out, pos + layout.elementSize ≤ out.buffer.size →
          Encode.Safe primitives (Encode.scalar pos layout.elementSize layout.scalar item field) pos
            layout.elementSize false out :=
        fun _ _ _ => Encode.safe_scalar hHolds.positive
      exact ⟨hStays.elements hSafe (fun _ _ _ _ => shows_scalar) hRun,
        fun _ hNext => nomatch hNext⟩
  | record source function varLen =>
      obtain ⟨hStatic, hSize⟩ := hFits
      obtain ⟨callee, hCallee, _, _, hShows⟩ := hCalls source rfl
      rw [assign_record hCallee] at hRun
      rw [← source_of_encodeFunction hCallee] at hStatic
      refine ⟨trivial, fun next hNext => ?_⟩
      cases hNext with
      | record hOther =>
          cases hCallee.symm.trans hOther
          exact hShows _ hStatic _ _ _ _ hRun (hSize ▸ hStays)
  | recordArray source function length =>
      obtain ⟨hStatic, hSize⟩ := hFits
      obtain ⟨callee, hCallee, _, hSafe, hShows⟩ := hCalls source rfl
      rw [assign_recordArray hCallee] at hRun
      rw [← source_of_encodeFunction hCallee] at hStatic
      rw [hSize] at hStays
      refine ⟨trivial, fun next hNext => ?_⟩
      cases hNext with
      | recordArray hOther hi =>
          cases hCallee.symm.trans hOther
          exact hStays.elements (P := fun item pos => encoder.Shows final ⟨callee, item, pos⟩)
            (hSafe _ hStatic) (hShows _ hStatic) hRun _ hi

/-- A variable-length array is shown, and so are the visits of its elements. -/
theorem shows_varLen {copy : Copy}
    (hCalls : encoder.Calls (encoder.CallShows primitives call final) copy)
    (hFits : encoder.CopyFits layout.element copy) (hFixed : copy.varLen = false)
    (hHolds : layout.Holds primitives) {count : Nat} {items : Option Value}
    (hRun : encoder.varLen call field count copy items pos layout out = .ok () after)
    (hStays : Stays pos descriptorSize out after final) :
    ArrayShown final layout field count items pos copy ∧
      ∀ start length, descriptorAt? final pos = some (start, length) → 0 < length →
        ∀ i < count, ∀ next, encoder.CopyEnters layout.elementSize (itemsOf items)[i]?
          (start + layout.elementSize * i) copy next → encoder.Shows final next := by
  have hSafe : encoder.Calls (encoder.CallSafe primitives call) copy :=
    hCalls.imp fun _ hShows => hShows.1
  cases hReserve : reservation? count layout.elementSize out.cursor out.buffer.size with
  | none =>
      rw [varLen_of_none hReserve] at hRun
      have hZero := descriptorAt?_of_zero hStays.room hRun hStays.kept
      refine ⟨.inl hZero, fun start length hSome hPos => ?_⟩
      cases hZero.symm.trans hSome
      exact absurd hPos (Nat.lt_irrefl 0)
  | some length =>
      obtain ⟨rfl, _, hBound⟩ := reservation?_eq_some hReserve
      rw [varLen_of_some hReserve hStays.room] at hRun
      have hFrame := (safe_elementCopies hSafe hFits hFixed hHolds field count items
        hBound).frame_of_ok hRun
      rw [Nat.mul_comm count] at hRun hFrame hBound
      have hStored := descriptorAt?_of_reserve hStays.room hStays.behind (by omega) hFrame
        hStays.kept
      have hElements := (hStays.reserve (by omega) hFrame).elements
        (P := fun item pos => CopyShown final layout.element field item pos copy ∧
          ∀ next, encoder.CopyEnters layout.elementSize item pos copy next →
            encoder.Shows final next)
        (fun item pos out hItem => safe_assign hSafe hFits hHolds.element field item hItem)
        (fun item pos out after hItem hPart => shows_assign hCalls hFits hHolds.element hItem hPart)
        hRun
      refine ⟨.inr ⟨out.cursor, ?_, fun i hi => (hElements i hi).1⟩, ?_⟩
      · rw [Nat.mul_comm]
        exact hStored
      · intro start length hSome _ i hi next hNext
        cases hStored.symm.trans hSome
        exact (hElements i hi).2 next hNext

/-- A union is shown, and so is what its selected member enters. -/
theorem shows_union {record : RecordRef} {discriminator : String} {arms : List UnionArm}
    {input : Option Value}
    (hCalls : ∀ arm ∈ arms, encoder.Calls (encoder.CallShows primitives call final) arm.copy)
    (hArms : ∀ arm ∈ arms, ∃ variant,
      encoder.fieldLayout record.source arm.member = .ok variant ∧ variant.offset = 0 ∧
        variant.size ≤ layout.size ∧ variant.Holds primitives ∧
        encoder.CopyFits variant arm.copy ∧ arm.copy.varLen = false)
    (hRun : encoder.union call field record discriminator arms input pos layout out = .ok () after)
    (hStays : Stays pos layout.size out after final) :
    encoder.UnionShown final field record discriminator arms input pos ∧
      ∀ selector arm variant next,
        integerOf (fieldOf input discriminator) discriminator = .ok selector →
        encoder.selectArm field selector arms = .ok arm →
        encoder.fieldLayout record.source arm.member = .ok variant →
        encoder.CopyEnters variant.elementSize (fieldOf (fieldOf input field) arm.member)
          (pos + variant.offset) arm.copy next → encoder.Shows final next := by
  obtain ⟨_, zeroed, hFill, hSelect⟩ := Encode.bind_ok.1 hRun
  rw [Encode.fill_eq 0 hStays.room] at hFill
  obtain rfl := (EStateM.Result.ok.inj hFill).2
  obtain ⟨selector, hSelector, hChoose⟩ := Encode.lift_bind_ok.1 hSelect
  obtain ⟨arm, hArm, hPlace⟩ := Encode.lift_bind_ok.1 hChoose
  obtain ⟨variant, hVariant, hAssign⟩ := Encode.lift_bind_ok.1 hPlace
  have hMem := mem_of_selectArm hArm
  obtain ⟨found, hFound, hOffset, hLe, hHolds, hFits, _⟩ := hArms arm hMem
  cases hVariant.symm.trans hFound
  obtain ⟨hShown, hEnters⟩ := shows_assign (hCalls arm hMem) hFits hHolds hAssign
    (by rw [hOffset, Nat.add_zero]; exact hStays.zeroed hLe)
  refine ⟨⟨selector, arm, variant, hSelector, hArm, hVariant, hShown⟩, ?_⟩
  intro other chosen place next hOther hChosen hAt hNext
  cases hSelector.symm.trans hOther
  cases hArm.symm.trans hChosen
  cases hVariant.symm.trans hAt
  exact hEnters next hNext

end Copies

/-! ## Steps -/

section Steps

variable {visit : Visit} {out after : Output}

/-- A step is shown, and so is what it enters. -/
theorem shows_step {step : Step} {part : Option SizeTerm} {layout : FieldLayout}
    (hCalls : ∀ copy ∈ step.copies,
      encoder.Calls (encoder.CallShows primitives call final) copy)
    (hLayout : encoder.fieldLayout visit.function.source step.field = .ok layout)
    (hHolds : layout.Holds primitives) (hFits : encoder.StepFits primitives layout part step)
    (hRun : encoder.step call visit.function.source visit.input visit.base step out = .ok () after)
    (hStays : Stays (visit.base + layout.offset) layout.size out after final) :
    encoder.StepThroughout final (encoder.StepShown final) visit step := by
  rw [Encoder.step, Encode.lift_bind_of_ok hLayout] at hRun
  cases step with
  | fixedScalar field value =>
      rw [hFits.1] at hStays
      obtain ⟨n, hValue, hScalar⟩ := Encode.lift_bind_ok.1 hRun
      refine ⟨⟨layout, hLayout, n, hValue, shows_scalar hScalar hStays⟩, fun next hNext => ?_⟩
      cases hNext
  | fixedFill field value =>
      obtain ⟨n, hValue, hFill⟩ := Encode.lift_bind_ok.1 hRun
      rw [Encode.fill_eq _ hStays.room] at hFill
      obtain rfl := (EStateM.Result.ok.inj hFill).2
      refine ⟨⟨layout, hLayout, n, hValue, hStays.shown (by simp)⟩, fun next hNext => ?_⟩
      cases hNext
  | assign field copy =>
      obtain ⟨hShown, hEnters⟩ :=
        shows_assign (hCalls copy List.mem_cons_self) hFits.1 hHolds hRun hStays
      refine ⟨⟨layout, hLayout, hShown⟩, fun next hNext => ?_⟩
      cases hNext with
      | assign hOther hCopy =>
          cases hLayout.symm.trans hOther
          exact hEnters next hCopy
  | varLen field lengthField element copy =>
      obtain ⟨hSize, hCopy, hFixed, _⟩ := hFits
      rw [hSize] at hStays
      obtain ⟨count, hCount, hArray⟩ := Encode.lift_bind_ok.1 hRun
      obtain ⟨hShown, hEnters⟩ :=
        shows_varLen (hCalls copy List.mem_cons_self) hCopy hFixed hHolds hArray hStays
      refine ⟨⟨layout, hLayout, count, hCount, hShown⟩, fun next hNext => ?_⟩
      cases hNext with
      | varLen hOther hNumber hDescriptor hPos hi hElement =>
          cases hLayout.symm.trans hOther
          cases hCount.symm.trans hNumber
          exact hEnters _ _ hDescriptor hPos _ hi next hElement
  | union field record discriminator arms =>
      obtain ⟨hShown, hEnters⟩ := shows_union
        (fun arm hArm => hCalls arm.copy (List.mem_map_of_mem hArm)) hFits.2 hRun hStays
      refine ⟨⟨layout, hLayout, hShown⟩, fun next hNext => ?_⟩
      cases hNext with
      | union hOther hSelector hArm hVariant hCopy =>
          cases hLayout.symm.trans hOther
          exact hEnters _ _ _ next hSelector hArm hVariant hCopy

theorem shows_steps (visit : Visit) {offset size : Nat} {steps : List Step}
    {parts : List (Option SizeTerm)}
    (hTiles : encoder.Tiles primitives visit.function.source offset steps parts size)
    (hCalls : ∀ step ∈ steps, ∀ copy ∈ step.copies,
      encoder.Calls (encoder.CallShows primitives call final) copy)
    (hRun : steps.forM (encoder.step call visit.function.source visit.input visit.base) out =
      .ok () after)
    (hStays : Stays (visit.base + offset) (size - offset) out after final) :
    ∀ step ∈ steps, encoder.StepThroughout final (encoder.StepShown final) visit step := by
  induction hTiles generalizing out with
  | nil => simp
  | @cons offset size step steps part parts layout hLayout hOffset hHolds hFits hRest ih =>
      have hLe := hRest.le
      have hRoom := hStays.room
      obtain ⟨_, mid, hStep, hSteps⟩ := Encode.bind_ok.1 hRun
      have hSafe : ∀ step' ∈ step :: steps, ∀ copy ∈ step'.copies,
          encoder.Calls (encoder.CallSafe primitives call) copy :=
        fun _ hMem copy hCopy => (hCalls _ hMem copy hCopy).imp fun _ hShows => hShows.1
      obtain ⟨hFirst, hSecond⟩ := frames_of_steps hLayout hHolds hFits hRest hSafe (by omega)
        (by omega) hStep hSteps
      refine List.forall_mem_cons.2 ⟨?_, ?_⟩
      · exact shows_step (hCalls step List.mem_cons_self) hLayout hHolds hFits hStep
          ((hOffset ▸ hStays).first hFirst hSecond (by omega) (by omega))
      · exact ih (fun _ hMem => hCalls _ (List.mem_cons_of_mem _ hMem)) hSteps
          ((hOffset ▸ hStays).second hFirst (by omega) (by omega))

/-- **What is written is shown**: for a run of a ready function. -/
theorem shows_run {height : Nat} {function : EncodeFunction}
    (h : encoder.Ready primitives height function) {fuel : Nat} (hFuel : height ≤ fuel) :
    encoder.CallShows primitives (encoder.run fuel) final function := by
  refine ⟨safe_run h hFuel, ?_⟩
  induction height generalizing function fuel with
  | zero => exact h.elim
  | succ height ih =>
      obtain ⟨fuel, rfl⟩ : ∃ k, fuel = k + 1 := ⟨fuel - 1, by omega⟩
      obtain ⟨⟨size, parts, hSize, hTiles, _⟩, hCalls⟩ := h
      intro given hGiven value base out after hCall hStays
      rw [hSize] at hGiven
      cases hGiven
      refine throughout_iff.2
        (shows_steps ⟨function, value, base⟩ hTiles ?_ (steps_of_run hCall).2 hStays)
      intro step hStep copy hCopy
      exact (hCalls step hStep copy hCopy).imp fun callee hReady =>
        ⟨safe_run hReady (by omega), ih hReady (by omega)⟩

end Steps

end Encoder

/-- What encoding a root visits is shown, if an allocation fits payload offsets. -/
theorem Deployed.shows_of_encode {declarations : Declarations} {request : Request}
    {naming : Naming} {encoder : Encoder} {primitives : Primitives}
    (h : Deployed declarations request naming encoder primitives)
    (hLimit : encoder.maxAllocation ≤ payloadLimit) {root : String} {value : Value}
    {bytes : Array UInt8} (hEncode : encoder.encode root value = .ok bytes) :
    ∃ start, encoder.Starts root value start ∧ start.function ∈ encoder.program.encodeFunctions ∧
      encoder.Shows bytes start := by
  obtain ⟨size, stop, _, hAllowed, hInto⟩ := Encoder.encode_eq_ok hEncode
  obtain ⟨point, needed, function, out, hPrepared, hRun, _, _, rfl⟩ := h.run_of_encodeInto hInto
  have hRoom := hPrepared.room
  rw [Array.size_replicate] at hRoom
  refine ⟨⟨function, some value, 0⟩, ⟨point, hPrepared.entry, hPrepared.encodes, rfl, rfl⟩,
    Encoder.mem_of_encodeFunction hPrepared.encodes, ?_⟩
  refine (Encoder.shows_run hPrepared.ready (encoder.length_le_callLimit value _)).2 needed
    hPrepared.static _ _ _ _ hRun ⟨?_, ?_, fun i hi => ?_, fun _ _ => rfl⟩
  · rw [Nat.zero_add, Array.size_replicate]
    exact hRoom
  · dsimp only
    omega
  · dsimp only at hi ⊢
    rw [Array.size_replicate] at hi
    rw [Array.getElem?_replicate, if_pos (by omega)]

end WireSchema
