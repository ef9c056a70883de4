import WireSchema.Proofs.Frame
import WireSchema.Proofs.ReadyEncoder

/-!
# Encode runs of compiled programs do not go wrong

The steps of a ready function write to their places only, and the functions they call
write to theirs.  So a run of a ready function stays within its frame from every state
and for every source value, and only the value can end it early.

## Main results

* `Encoder.safe_step`: one step is safe if the functions it calls are.
* `Encoder.safe_run`: a run of a ready function is safe.
-/

namespace WireSchema

theorem FieldLayout.Holds.positive {primitives : Primitives} {layout : FieldLayout}
    (h : layout.Holds primitives) (hScalar : layout.scalar ≠ none) :
    0 < layout.elementSize ∨ ¬ primitives.Positive := by
  by_cases hPositive : primitives.Positive
  case neg => exact .inr hPositive
  left
  obtain ⟨scalar, hSome⟩ := Option.ne_none_iff_exists'.1 hScalar
  obtain ⟨spec, hResolve⟩ := h scalar hSome
  unfold Primitives.resolve? at hResolve
  dsimp only at hResolve
  split at hResolve
  · have hSize : Primitives.enumeration.size = layout.elementSize :=
      congrArg Primitive.size (Option.some.inj hResolve)
    rw [← hSize]
    decide
  · exact hPositive _ _ hResolve

/-- Whether the step can move the cursor. -/
def Step.movesCursor : Step → Bool
  | .assign _ copy => copy.varLen
  | .varLen .. => true
  | _ => false

/-- The state in which the elements of an array are copied: `length` bytes of payload are
reserved, and the descriptor at `pos` says so. -/
def Output.reserve (out : Output) (pos length : Nat) : Output where
  buffer := storeBytes out.buffer pos (leBytes 2 out.cursor ++ leBytes 2 length)
  cursor := out.cursor + length

@[simp] theorem Output.cursor_reserve (out : Output) (pos length : Nat) :
    (out.reserve pos length).cursor = out.cursor + length :=
  rfl

@[simp] theorem Output.size_reserve (out : Output) (pos length : Nat) :
    (out.reserve pos length).buffer.size = out.buffer.size := by
  rw [Output.reserve]
  dsimp only
  rw [size_storeBytes]

theorem Output.getElem?_reserve {out : Output} {pos length k : Nat}
    (hRoom : pos + descriptorSize ≤ out.buffer.size) (hk : k < descriptorSize) :
    (out.reserve pos length).buffer[pos + k]? =
      (leBytes 2 out.cursor ++ leBytes 2 length)[k]? := by
  rw [Output.reserve]
  dsimp only
  exact getElem?_storeDescriptor hRoom hk

theorem Frame.of_reserve {out after : Output} {pos length : Nat}
    (hRoom : pos + descriptorSize ≤ out.buffer.size)
    (hBound : out.cursor + length ≤ min out.buffer.size payloadLimit)
    (hElements : Frame out.cursor length false (out.reserve pos length) after) :
    Frame pos descriptorSize true out after := by
  refine Frame.payload hBound (Encode.frame_descriptor out.cursor length hRoom) ?_
  rw [Output.reserve] at hElements
  dsimp only
  exact hElements

theorem FieldLayout.Holds.element {primitives : Primitives} {layout : FieldLayout}
    (h : layout.Holds primitives) : layout.element.Holds primitives :=
  h

namespace Encoder

variable {encoder : Encoder} {primitives : Primitives} {call : EncodeCall}

theorem source_of_encodeFunction {source : String} {function : EncodeFunction}
    (h : encoder.encodeFunction source = .ok function) : function.source = source := by
  have hName := List.find?_some (encodeFunction_eq_ok.1 h)
  exact eq_of_beq hName

theorem mem_of_encodeFunction {source : String} {function : EncodeFunction}
    (h : encoder.encodeFunction source = .ok function) :
    function ∈ encoder.program.encodeFunctions :=
  List.mem_of_find?_eq_some (encodeFunction_eq_ok.1 h)

/-- Calling the function is safe wherever its packed type has room. -/
def CallSafe (encoder : Encoder) (primitives : Primitives) (call : EncodeCall)
    (function : EncodeFunction) : Prop :=
  ∀ size, encoder.staticSize function.source = .ok size → ∀ value pos out,
    pos + size ≤ out.buffer.size →
    Encode.Safe primitives (call function value pos) pos size function.varLen out

/-! ## One step -/

/-- Copying a record calls the function of its type. -/
theorem assign_record {source function field : String} {varLen : Bool} {callee : EncodeFunction}
    (h : encoder.encodeFunction source = .ok callee) (value : Option Value) (pos : Nat)
    (layout : FieldLayout) :
    encoder.assign call (.record source function varLen) field value pos layout =
      call callee value pos := by
  rw [Encoder.assign, Encode.lift_bind_of_ok h]

/-- Copying an array of records calls the function of their type for each of them. -/
theorem assign_recordArray {source function field : String} {length : Nat}
    {callee : EncodeFunction} (h : encoder.encodeFunction source = .ok callee)
    (value : Option Value) (pos : Nat) (layout : FieldLayout) :
    encoder.assign call (.recordArray source function length) field value pos layout =
      Encode.elements (call callee) layout.elementSize length (itemsOf value) pos := by
  rw [Encoder.assign, Encode.lift_bind_of_ok h]

theorem safe_assign {copy : Copy} (hCalls : encoder.Calls (encoder.CallSafe primitives call) copy)
    {layout : FieldLayout} (hFits : encoder.CopyFits layout copy)
    (hHolds : layout.Holds primitives) (field : String)
    (value : Option Value) {pos : Nat} {out : Output}
    (hRoom : pos + layout.size ≤ out.buffer.size) :
    Encode.Safe primitives (encoder.assign call copy field value pos layout) pos layout.size
      copy.varLen out := by
  cases copy with
  | scalar =>
      obtain ⟨_, hSize⟩ := hFits
      rw [hSize] at hRoom ⊢
      exact Encode.safe_scalar hHolds.positive hRoom
  | array length =>
      obtain ⟨_, hSize⟩ := hFits
      rw [hSize] at hRoom ⊢
      exact Encode.safe_elements
        (fun item pos out hItem _ => Encode.safe_scalar hHolds.positive hItem) length _ pos out
        hRoom rfl
  | record source function varLen =>
      obtain ⟨hStatic, hSize⟩ := hFits
      obtain ⟨callee, hCallee, hVarLen, hSafe⟩ := hCalls source rfl
      rw [← source_of_encodeFunction hCallee] at hStatic
      rw [hSize] at hRoom ⊢
      rw [assign_record hCallee, ← hVarLen]
      exact hSafe _ hStatic value pos out hRoom
  | recordArray source function length =>
      obtain ⟨hStatic, hSize⟩ := hFits
      obtain ⟨callee, hCallee, hVarLen, hSafe⟩ := hCalls source rfl
      rw [← source_of_encodeFunction hCallee] at hStatic
      rw [hSize] at hRoom ⊢
      rw [assign_recordArray hCallee, ← hVarLen]
      exact Encode.safe_elements (fun item pos out hItem _ => hSafe _ hStatic item pos out hItem)
        length _ pos out hRoom rfl

theorem reservation?_eq_some {count elementSize cursor size length : Nat}
    (h : reservation? count elementSize cursor size = some length) :
    length = count * elementSize ∧ 0 < length ∧ cursor + length ≤ min size payloadLimit := by
  unfold reservation? at h
  dsimp only at h
  split at h
  · rename_i hFits
    cases h
    exact ⟨rfl, hFits.1, hFits.2.2⟩
  · cases h

theorem reservation?_eq_none {count elementSize cursor size : Nat}
    (h : reservation? count elementSize cursor size = none) :
    ¬ (0 < count * elementSize ∧ cursor + count * elementSize ≤ min size payloadLimit) := by
  unfold reservation? at h
  dsimp only at h
  split at h
  · cases h
  · rename_i hNot
    rintro ⟨hPos, hRoom⟩
    exact hNot ⟨hPos, by omega, hRoom⟩

/-- The element copies of an array, once its payload is reserved. -/
def elementCopies (encoder : Encoder) (call : EncodeCall) (field : String) (count : Nat)
    (copy : Copy) (items : Option Value) (start : Nat) (layout : FieldLayout) : Encode Unit :=
  Encode.elements (fun item pos => encoder.assign call copy field item pos layout.element)
    layout.elementSize count (itemsOf items) start

theorem varLen_of_none {field : String} {count : Nat} {copy : Copy} {items : Option Value}
    {pos : Nat} {layout : FieldLayout} {out : Output}
    (h : reservation? count layout.elementSize out.cursor out.buffer.size = none) :
    encoder.varLen call field count copy items pos layout out =
      Encode.storeDescriptor pos 0 0 out := by
  simp only [Encoder.varLen, Encode.get_bind, h]

theorem varLen_of_some {field : String} {count : Nat} {copy : Copy} {items : Option Value}
    {pos : Nat} {layout : FieldLayout} {out : Output} {length : Nat}
    (h : reservation? count layout.elementSize out.cursor out.buffer.size = some length)
    (hRoom : pos + descriptorSize ≤ out.buffer.size) :
    encoder.varLen call field count copy items pos layout out =
      encoder.elementCopies call field count copy items out.cursor layout
        (out.reserve pos length) := by
  simp only [Encoder.varLen, Encode.get_bind, h,
    Encode.bind_of_ok (Encode.storeDescriptor_eq _ _ hRoom), Encode.advance_bind, Output.reserve]
  rfl

/-- An array that has been stored had room for its descriptor. -/
theorem room_of_varLen {field : String} {count : Nat} {copy : Copy} {items : Option Value}
    {pos : Nat} {layout : FieldLayout} {out after : Output} {length : Nat}
    (h : reservation? count layout.elementSize out.cursor out.buffer.size = some length)
    (hRun : encoder.varLen call field count copy items pos layout out = .ok () after) :
    pos + descriptorSize ≤ out.buffer.size := by
  simp only [Encoder.varLen, Encode.get_bind, h] at hRun
  obtain ⟨_, mid, hStore, _⟩ := Encode.bind_ok.1 hRun
  exact Encode.room_of_storeDescriptor hStore

/-- The elements of an array keep to the payload that has been reserved for them. -/
theorem safe_elementCopies {copy : Copy}
    (hCalls : encoder.Calls (encoder.CallSafe primitives call) copy) {layout : FieldLayout}
    (hFits : encoder.CopyFits layout.element copy) (hFixed : copy.varLen = false)
    (hHolds : layout.Holds primitives) (field : String) (count : Nat) (items : Option Value)
    {pos : Nat} {out : Output}
    (hBound : out.cursor + count * layout.elementSize ≤ min out.buffer.size payloadLimit) :
    Encode.Safe primitives (encoder.elementCopies call field count copy items out.cursor layout)
      out.cursor (count * layout.elementSize) false
      (out.reserve pos (count * layout.elementSize)) := by
  rw [Nat.mul_comm] at hBound ⊢
  refine Encode.safe_elements (fun item pos out hItem _ => ?_) count _ out.cursor _ ?_ rfl
  · rw [← hFixed]
    exact safe_assign hCalls hFits hHolds.element field item hItem
  · rw [Output.size_reserve]
    omega

theorem safe_varLen {copy : Copy} (hCalls : encoder.Calls (encoder.CallSafe primitives call) copy)
    {layout : FieldLayout} (hFits : encoder.CopyFits layout.element copy)
    (hFixed : copy.varLen = false) (hHolds : layout.Holds primitives)
    (field : String) (count : Nat) (items : Option Value) {pos : Nat} {out : Output}
    (hRoom : pos + descriptorSize ≤ out.buffer.size) :
    Encode.Safe primitives (encoder.varLen call field count copy items pos layout) pos
      descriptorSize true out := by
  cases hReserve : reservation? count layout.elementSize out.cursor out.buffer.size with
  | none =>
      unfold Encode.Safe
      rw [varLen_of_none hReserve]
      exact Encode.safe_storeDescriptor 0 0 hRoom
  | some length =>
      obtain ⟨rfl, _, hBound⟩ := reservation?_eq_some hReserve
      have hElements : Encode.Safe primitives _ _ _ _
          (out.reserve pos (count * layout.elementSize)) :=
        safe_elementCopies hCalls hFits hFixed hHolds field count items hBound
      unfold Encode.Safe at hElements ⊢
      rw [varLen_of_some hReserve hRoom]
      split at hElements
      · exact Frame.of_reserve hRoom hBound hElements
      · exact ⟨hElements.1, Frame.of_reserve hRoom hBound hElements.2⟩

theorem fromValue_of_valueOf {literal : Literal} {fault : Fault}
    (h : encoder.valueOf literal = .error fault) : fault.FromValue := by
  unfold Encoder.valueOf at h
  split at h
  · cases h
  · split at h
    · cases h
    · cases h
      trivial

theorem fromValue_of_selectArm {field : String} {selector : Int64} {arms : List UnionArm}
    {fault : Fault} (h : encoder.selectArm field selector arms = .error fault) :
    fault.FromValue := by
  induction arms with
  | nil =>
      cases h
      trivial
  | cons arm rest ih =>
      rcases bind_eq_error.1 h with hValue | ⟨n, _, h⟩
      · exact fromValue_of_valueOf hValue
      · split at h
        · cases h
        · exact ih h

theorem mem_of_selectArm {field : String} {selector : Int64} {arms : List UnionArm}
    {arm : UnionArm} (h : encoder.selectArm field selector arms = .ok arm) : arm ∈ arms := by
  induction arms with
  | nil => cases h
  | cons first rest ih =>
      obtain ⟨n, _, h⟩ := bind_eq_ok.1 h
      split at h
      · rw [pure_eq_ok.1 h]
        exact List.mem_cons_self
      · exact List.mem_cons_of_mem _ (ih h)

theorem fromValue_of_lengthOf {value : Option Value} {lengthField : String} {fault : Fault}
    (h : lengthOf value lengthField = .error fault) : fault.FromValue := by
  rcases bind_eq_error.1 h with hInteger | ⟨n, _, h⟩
  · exact Encode.fromValue_of_integerOf hInteger
  · split at h
    · cases h
      trivial
    · cases h

theorem safe_union {record : RecordRef} {arms : List UnionArm} {layout : FieldLayout}
    (hCalls : ∀ arm ∈ arms, encoder.Calls (encoder.CallSafe primitives call) arm.copy)
    (hArms : ∀ arm ∈ arms, ∃ variant,
      encoder.fieldLayout record.source arm.member = .ok variant ∧ variant.offset = 0 ∧
        variant.size ≤ layout.size ∧ variant.Holds primitives ∧
        encoder.CopyFits variant arm.copy ∧ arm.copy.varLen = false)
    (field discriminator : String) (input : Option Value)
    {pos : Nat} {out : Output} (hRoom : pos + layout.size ≤ out.buffer.size) :
    Encode.Safe primitives (encoder.union call field record discriminator arms input pos layout) pos
      layout.size false out := by
  have hFill : Encode.Safe primitives (Encode.fill pos layout.size 0) pos layout.size false out :=
    Encode.safe_fill 0 hRoom
  refine hFill.bind fun _ zeroed hZeroed => ?_
  have hSize := (hFill.frame_of_ok hZeroed).size_eq
  refine Encode.Safe.lift_bind (fun _ h => .inl (Encode.fromValue_of_integerOf h))
    fun selector _ => ?_
  refine Encode.Safe.lift_bind (fun _ h => .inl (fromValue_of_selectArm h)) fun arm hArm => ?_
  have hMem := mem_of_selectArm hArm
  obtain ⟨variant, hVariant, hOffset, hLe, hHolds, hFits, hFixed⟩ := hArms arm hMem
  rw [Encode.lift_bind_of_ok hVariant, hOffset, Nat.add_zero, ← hFixed]
  exact (safe_assign (hCalls arm hMem) hFits hHolds _ _ (by omega)).mono
    (Nat.le_refl _) (by omega) id

/-- One step is safe in its place. -/
theorem safe_step {source : String} {step : Step} {layout : FieldLayout} {part : Option SizeTerm}
    (hCalls : ∀ copy ∈ step.copies, encoder.Calls (encoder.CallSafe primitives call) copy)
    (hLayout : encoder.fieldLayout source step.field = .ok layout)
    (hHolds : layout.Holds primitives) (hFits : encoder.StepFits primitives layout part step)
    (input : Option Value) {base : Nat} {out : Output}
    (hRoom : base + layout.offset + layout.size ≤ out.buffer.size) :
    Encode.Safe primitives (encoder.step call source input base step) (base + layout.offset)
      layout.size step.movesCursor out := by
  rw [Encoder.step, Encode.lift_bind_of_ok hLayout]
  cases step with
  | fixedScalar field value =>
      rw [hFits.1] at hRoom ⊢
      refine Encode.Safe.lift_bind (fun _ h => .inl (fromValue_of_valueOf h)) fun n _ => ?_
      exact Encode.safe_scalar hHolds.positive hRoom
  | fixedFill field value =>
      refine Encode.Safe.lift_bind (fun _ h => .inl (fromValue_of_valueOf h)) fun n _ => ?_
      exact Encode.safe_fill _ hRoom
  | assign field copy =>
      exact safe_assign (hCalls copy List.mem_cons_self) hFits.1 hHolds field _ hRoom
  | varLen field lengthField element copy =>
      obtain ⟨hSize, hCopy, hFixed, _⟩ := hFits
      rw [hSize] at hRoom ⊢
      refine Encode.Safe.lift_bind (fun _ h => .inl (fromValue_of_lengthOf h)) fun count _ => ?_
      exact safe_varLen (hCalls copy List.mem_cons_self) hCopy hFixed hHolds field count _ hRoom
  | union field record discriminator arms =>
      refine safe_union (fun arm hArm => hCalls arm.copy (List.mem_map_of_mem hArm)) hFits.2
        field discriminator input hRoom

/-! ## All steps -/

theorem Tiles.le {source : String} {offset size : Nat} {steps : List Step}
    {parts : List (Option SizeTerm)}
    (h : encoder.Tiles primitives source offset steps parts size) : offset ≤ size := by
  induction h with
  | nil => exact Nat.le_refl _
  | cons _ _ _ _ _ ih => omega

/-- A step that adds nothing to the encoded size leaves the cursor alone. -/
theorem StepFits.movesCursor {layout : FieldLayout} {step : Step}
    (h : encoder.StepFits primitives layout none step) : step.movesCursor = false := by
  cases step with
  | fixedScalar field value => rfl
  | fixedFill field value => rfl
  | assign field copy =>
      obtain ⟨_, hPart⟩ := h
      cases copy with
      | record source function varLen =>
          cases varLen with
          | false => rfl
          | true =>
              obtain ⟨_, _, hSome⟩ := hPart
              cases hSome
      | scalar => rfl
      | array length => rfl
      | recordArray source function length => rfl
  | varLen field lengthField element copy => cases h.2.2.2
  | union field record discriminator arms => rfl

theorem safe_steps {source : String} {offset size : Nat} {steps : List Step}
    {parts : List (Option SizeTerm)}
    (hTiles : encoder.Tiles primitives source offset steps parts size) {varLen : Bool}
    (hFixed : varLen = false → ∀ part ∈ parts, part = none)
    (hCalls : ∀ step ∈ steps, ∀ copy ∈ step.copies,
      encoder.Calls (encoder.CallSafe primitives call) copy)
    (input : Option Value) (base : Nat) (out : Output)
    (hRoom : base + size ≤ out.buffer.size) :
    Encode.Safe primitives (steps.forM (encoder.step call source input base)) (base + offset)
      (size - offset) varLen out := by
  induction hTiles generalizing out with
  | nil => exact Encode.Safe.pure ()
  | @cons offset size step steps part parts layout hLayout hOffset hHolds hFits hRest ih =>
      have hLe := hRest.le
      have hMoves : step.movesCursor = true → varLen = true := by
        intro hMoves
        by_contra hNot
        obtain rfl := hFixed (by simpa using hNot) part List.mem_cons_self
        rw [hFits.movesCursor] at hMoves
        cases hMoves
      have hStep : Encode.Safe primitives (encoder.step call source input base step)
          (base + offset) (size - offset) varLen out :=
        (safe_step (hCalls step List.mem_cons_self) hLayout hHolds hFits input
          (by omega)).mono (by omega) (by omega) hMoves
      show Encode.Safe primitives (encoder.step call source input base step >>= fun _ =>
        steps.forM (encoder.step call source input base)) _ _ _ _
      refine hStep.bind fun _ mid hRun => ?_
      have hSize := (hStep.frame_of_ok hRun).size_eq
      exact (ih (fun h part hPart => hFixed h part (List.mem_cons_of_mem _ hPart))
        (fun step hStep => hCalls step (List.mem_cons_of_mem _ hStep)) mid (by omega)).mono
          (by omega) (by omega) id

theorem Calls.imp {copy : Copy} {good better : EncodeFunction → Prop}
    (h : encoder.Calls good copy) (hImp : ∀ function, good function → better function) :
    encoder.Calls better copy := by
  intro source hSource
  obtain ⟨callee, hCallee, hVarLen, hGood⟩ := h source hSource
  exact ⟨callee, hCallee, hVarLen, hImp callee hGood⟩

/-- A step and the steps behind it that succeed keep to their places, one after the other. -/
theorem frames_of_steps {source : String} {offset size : Nat} {step : Step} {steps : List Step}
    {part : Option SizeTerm} {parts : List (Option SizeTerm)} {layout : FieldLayout}
    (hLayout : encoder.fieldLayout source step.field = .ok layout) (hHolds : layout.Holds primitives)
    (hFits : encoder.StepFits primitives layout part step)
    (hRest : encoder.Tiles primitives source offset steps parts size)
    (hCalls : ∀ other ∈ step :: steps, ∀ copy ∈ other.copies,
      encoder.Calls (encoder.CallSafe primitives call) copy)
    {input : Option Value} {base : Nat} {out mid after : Output}
    (hRoom : base + layout.offset + layout.size ≤ out.buffer.size)
    (hWhole : base + size ≤ out.buffer.size)
    (hStep : encoder.step call source input base step out = .ok () mid)
    (hSteps : steps.forM (encoder.step call source input base) mid = .ok () after) :
    Frame (base + layout.offset) layout.size step.movesCursor out mid ∧
      Frame (base + offset) (size - offset) true mid after := by
  have hFirst := (safe_step (hCalls step List.mem_cons_self) hLayout hHolds hFits input
    hRoom).frame_of_ok hStep
  have hSecond : Encode.Safe primitives (steps.forM (encoder.step call source input base))
      (base + offset) (size - offset) true mid :=
    safe_steps hRest (fun hNo : true = false => nomatch hNo)
      (fun _ hMem => hCalls _ (List.mem_cons_of_mem _ hMem)) input base mid
      (hFirst.size_eq ▸ hWhole)
  exact ⟨hFirst, hSecond.frame_of_ok hSteps⟩

theorem run_succ (encoder : Encoder) (fuel : Nat) (function : EncodeFunction)
    (value : Option Value) (base : Nat) :
    encoder.run (fuel + 1) function value base =
      if value.all Value.isRecord then
        function.steps.forM (encoder.step (encoder.run fuel) function.source value base)
      else Encode.fail (.typeMismatch function.source .record) :=
  rfl

/-- A run that succeeds has taken all steps. -/
theorem steps_of_run {fuel : Nat} {function : EncodeFunction} {value : Option Value} {base : Nat}
    {out after : Output} (h : encoder.run (fuel + 1) function value base out = .ok () after) :
    value.all Value.isRecord = true ∧
      function.steps.forM (encoder.step (encoder.run fuel) function.source value base) out =
        .ok () after := by
  rw [run_succ] at h
  split at h
  · exact ⟨‹_›, h⟩
  · cases h

/-- **Safety of encode runs**: a run of a ready function keeps to its place and to the
payload it reserves, whatever it encodes and however it ends. -/
theorem safe_run {height : Nat} {function : EncodeFunction}
    (h : encoder.Ready primitives height function) {fuel : Nat} (hFuel : height ≤ fuel) :
    encoder.CallSafe primitives (encoder.run fuel) function := by
  induction height generalizing function fuel with
  | zero => exact h.elim
  | succ height ih =>
      obtain ⟨fuel, rfl⟩ : ∃ k, fuel = k + 1 := ⟨fuel - 1, by omega⟩
      obtain ⟨⟨size, parts, hSize, hTiles, hFixed, _⟩, hCalls⟩ := h
      intro given hGiven value pos out hRoom
      rw [hSize] at hGiven
      cases hGiven
      rw [run_succ]
      split
      · refine (safe_steps hTiles hFixed (fun step hStep copy hCopy => ?_) value pos out
          hRoom).mono (by omega) (by omega) id
        exact (hCalls step hStep copy hCopy).imp fun callee hCallee => ih hCallee (by omega)
      · exact ⟨.inl trivial, Frame.refl out⟩

end Encoder

end WireSchema
