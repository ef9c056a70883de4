import WireSchema.Proofs.EncodedSize
import WireSchema.Proofs.WellShapedValues

/-!
# Runs that do not blame the source value

A ready function stays within its frame, and a run of it ends early only with an error that
names the source value or a constant.  On a well-shaped value there is nothing to name: each
reading finds the kind of value it wants, and constants have values.  The same holds for the
computation of an encoded size.

A constant is written like a number, so its place has to be one for a number
(`Encoder.ConstantsFit`), and a place for a floating-point number has to have one of the two
sizes that such a number can have (`Primitives.Writable`).

## Main results

* `Encoder.blameless_run`: a run on a well-shaped value has no error that names a value.
* `Encoder.blameless_dynamicSize`: nor has the computation of its size.
-/

namespace WireSchema

/-! ## Runs without errors that name a value -/

namespace Encode

variable {α β : Type}

/-- No fault of the run is one of the source value. -/
def Blameless (m : Encode α) : Prop :=
  ∀ out fault after, m out = .error fault after → ¬ fault.FromValue

namespace Blameless

theorem pure (a : α) : Blameless (pure a : Encode α) :=
  nofun

theorem throw {fault : Fault} (h : ¬ fault.FromValue) : Blameless (throw fault : Encode α) := by
  rintro out _ after ⟨⟩
  exact h

theorem bind {m : Encode α} {k : α → Encode β} (h : Blameless m) (hk : ∀ a, Blameless (k a)) :
    Blameless (m >>= k) := by
  intro out fault after hRun
  rcases bind_error.1 hRun with hFirst | ⟨a, mid, _, hRest⟩
  · exact h out fault after hFirst
  · exact hk a mid fault after hRest

/-- What follows a look-up is reached only if the look-up succeeds. -/
theorem lift_bind {x : Except Fault α} {k : α → Encode β}
    (h : ∀ fault, x = .error fault → ¬ fault.FromValue) (hk : ∀ a, x = .ok a → Blameless (k a)) :
    Blameless (liftM x >>= k) := by
  cases x with
  | ok a => exact hk a rfl
  | error fault => exact throw (h fault rfl)

theorem lift_ok_bind {x : Except Fault α} {k : α → Encode β} {a : α} (hx : x = .ok a)
    (h : Blameless (k a)) : Blameless (liftM x >>= k) := by
  rw [lift_bind_of_ok hx]
  exact h

theorem forM {γ : Type} {f : γ → Encode Unit} {l : List γ} (h : ∀ x ∈ l, Blameless (f x)) :
    Blameless (l.forM f) := by
  induction l with
  | nil => exact pure ()
  | cons x rest ih =>
      exact (h x List.mem_cons_self).bind fun _ => ih fun y hy => h y (List.mem_cons_of_mem _ hy)

end Blameless

theorem blameless_ensureRoom (pos size : Nat) : Blameless (ensureRoom pos size) := by
  intro out fault after hRun
  have hRun : (if pos + size ≤ out.buffer.size then Pure.pure ()
    else throw Fault.outOfBounds : Encode Unit) out = .error fault after := hRun
  split at hRun
  · cases hRun
  · cases hRun
    exact id

theorem blameless_store (pos : Nat) (bytes : List UInt8) : Blameless (store pos bytes) :=
  nofun

theorem blameless_advance (length : Nat) : Blameless (advance length) :=
  nofun

theorem blameless_fill (pos size : Nat) (byte : UInt8) : Blameless (fill pos size byte) :=
  (blameless_ensureRoom pos size).bind fun _ => blameless_store pos _

theorem blameless_storeUInt16 (pos value : Nat) : Blameless (storeUInt16 pos value) :=
  (blameless_ensureRoom pos 2).bind fun _ => blameless_store pos _

theorem blameless_storeDescriptor (pos offset length : Nat) :
    Blameless (storeDescriptor pos offset length) :=
  (blameless_storeUInt16 pos offset).bind fun _ => blameless_storeUInt16 (pos + 2) length

/-- Elements have no errors that name a value if none of the items has. -/
theorem blameless_elements {element : Option Value → Nat → Encode Unit} {size count : Nat}
    {items : List Value} (h : ∀ i < count, ∀ pos, Blameless (element items[i]? pos)) (pos : Nat) :
    Blameless (elements element size count items pos) := by
  induction count generalizing items pos with
  | zero => exact Blameless.pure ()
  | succ count ih =>
      rw [elements, List.head?_eq_getElem?]
      refine (h 0 (by omega) pos).bind fun _ => ih (fun i hi pos => ?_) (pos + size)
      rw [List.getElem?_tail]
      exact h (i + 1) (by omega) pos

theorem exists_integerOf {value : Option Value} (h : value.all Value.isNumber = true)
    (field : String) : ∃ n, integerOf value field = .ok n := by
  rcases value with _ | (n | x | _ | _)
  · exact ⟨0, rfl⟩
  · exact ⟨n, rfl⟩
  · exact ⟨x.truncate, rfl⟩
  · cases h
  · cases h

theorem exists_floatOf {value : Option Value} (h : value.all Value.isNumber = true)
    (field : String) : ∃ x, floatOf value field = .ok x := by
  rcases value with _ | (n | x | _ | _)
  · exact ⟨_, rfl⟩
  · exact ⟨_, rfl⟩
  · exact ⟨x, rfl⟩
  · cases h
  · cases h

/-- A number can be written to any place for one. -/
theorem blameless_scalar {size : Nat} {slot : Option ScalarClass} {value : Option Value}
    (hSlot : slot ≠ none) (hFloat : slot = some .float → size = 4 ∨ size = 8)
    (hNumber : value.all Value.isNumber = true) (pos : Nat) (field : String) :
    Blameless (scalar pos size slot value field) := by
  obtain ⟨n, hn⟩ := exists_integerOf hNumber field
  obtain ⟨x, hx⟩ := exists_floatOf hNumber field
  refine (blameless_ensureRoom pos size).bind fun _ => Blameless.lift_bind (fun fault hFault => ?_)
    fun bytes _ => blameless_store pos bytes
  unfold scalarBytes at hFault
  rw [hn, hx] at hFault
  split at hFault
  · exact absurd rfl hSlot
  · rcases hFloat rfl with rfl | rfl <;> cases hFault
  · by_cases hZero : size = 0
    · rw [hZero] at hFault
      cases hFault
      exact id
    · simp only [bind, Except.bind, if_neg hZero] at hFault
      cases hFault
  · cases hFault
  · cases hFault

end Encode

/-- Every primitive type can be written: a floating-point number has four or eight bytes, and
everything else at least one. -/
def Primitives.Writable (primitives : Primitives) : Prop :=
  ∀ name primitive, primitives.get? name = some primitive →
    if primitive.scalar = .float then primitive.size = 4 ∨ primitive.size = 8
    else 0 < primitive.size

theorem Primitives.Writable.positive {primitives : Primitives} (h : primitives.Writable) :
    primitives.Positive := by
  intro name primitive hGet
  have hSize := h name primitive hGet
  split at hSize
  · omega
  · exact hSize

theorem FieldLayout.Holds.float_size {primitives : Primitives} {layout : FieldLayout}
    (h : layout.Holds primitives) (hWritable : primitives.Writable)
    (hFloat : layout.scalar = some .float) : layout.elementSize = 4 ∨ layout.elementSize = 8 := by
  obtain ⟨spec, hResolve⟩ := h _ hFloat
  unfold Primitives.resolve? at hResolve
  dsimp only at hResolve
  split at hResolve
  · cases congrArg Primitive.scalar (Option.some.inj hResolve)
  · exact hWritable _ _ hResolve

namespace Encoder

variable {encoder : Encoder} {primitives : Primitives} {call : EncodeCall}

/-- A constant that is written as a scalar stands in a place for one. -/
def ConstantsFit (encoder : Encoder) : Prop :=
  ∀ function ∈ encoder.program.encodeFunctions, ∀ field value layout,
    .fixedScalar field value ∈ function.steps →
    encoder.fieldLayout function.source field = .ok layout → layout.scalar ≠ none

/-- The function that a copy of `given` calls has no errors that name a value, for any part. -/
def CallsBlameless (encoder : Encoder) (call : EncodeCall) (copy : Copy)
    (given : Option Value) : Prop :=
  ∀ source, copy.callee? = some source → ∃ callee, encoder.encodeFunction source = .ok callee ∧
    ∀ part ∈ copy.parts given, ∀ pos, (call callee part pos).Blameless

theorem blameless_assign {copy : Copy} {given : Option Value} {layout : FieldLayout}
    (hFits : encoder.CopyFits layout copy) (hHolds : layout.Holds primitives)
    (hWritable : primitives.Writable)
    (hNumbers : copy.callee? = none → ∀ part ∈ copy.parts given,
      part.all Value.isNumber = true)
    (hCalls : encoder.CallsBlameless call copy given) (field : String) (pos : Nat) :
    (encoder.assign call copy field given pos layout).Blameless := by
  cases copy with
  | scalar =>
      exact Encode.blameless_scalar hFits.1 (hHolds.float_size hWritable)
        (hNumbers rfl given List.mem_cons_self) pos field
  | array length =>
      refine Encode.blameless_elements (fun i hi pos => ?_) pos
      exact Encode.blameless_scalar hFits.1 (hHolds.float_size hWritable)
        (hNumbers rfl _ (Copy.getElem?_mem_parts rfl hi given)) pos field
  | record source function varLen =>
      obtain ⟨callee, hCallee, hRun⟩ := hCalls source rfl
      rw [assign_record hCallee]
      exact hRun given List.mem_cons_self pos
  | recordArray source function length =>
      obtain ⟨callee, hCallee, hRun⟩ := hCalls source rfl
      rw [assign_recordArray hCallee]
      exact Encode.blameless_elements
        (fun i hi pos => hRun _ (Copy.getElem?_mem_parts rfl hi given) pos) pos

/-- A discriminator whose value some arm has selects an arm. -/
theorem exists_selectArm (field : String) {selector : Int64} {arms : List UnionArm}
    (hDefined : ∀ arm ∈ arms, ∃ n, encoder.valueOf arm.value = .ok n)
    (hArm : ∃ arm ∈ arms, encoder.valueOf arm.value = .ok selector) :
    ∃ arm, encoder.selectArm field selector arms = .ok arm := by
  induction arms with
  | nil => simp at hArm
  | cons first rest ih =>
      obtain ⟨n, hn⟩ := hDefined first List.mem_cons_self
      rw [Encoder.selectArm, hn]
      by_cases hSame : n = selector
      · exact ⟨first, by simp [bind, Except.bind, hSame, pure, Except.pure]⟩
      · obtain ⟨arm, hMem, hValue⟩ := hArm
        rcases List.mem_cons.1 hMem with rfl | hMem
        · rw [hn] at hValue
          exact absurd (Except.ok.inj hValue) hSame
        · obtain ⟨found, hFound⟩ :=
            ih (fun arm hArm => hDefined arm (List.mem_cons_of_mem _ hArm)) ⟨arm, hMem, hValue⟩
          exact ⟨found, by simpa [bind, Except.bind, hSame] using hFound⟩

/-- A count that is absent or not negative is a length. -/
theorem exists_lengthOf {input : Option Value} {lengthField : String}
    (h : ∀ value, fieldOf input lengthField = some value →
      ∃ n, value.toInt? = some n ∧ 0 ≤ n.toInt) :
    ∃ count, lengthOf input lengthField = .ok count := by
  unfold lengthOf integerOf
  cases hField : fieldOf input lengthField with
  | none => exact ⟨0, rfl⟩
  | some value =>
      obtain ⟨n, hn, hSign⟩ := h value hField
      refine ⟨n.toInt.toNat, ?_⟩
      simp only [hn, bind, Except.bind]
      rw [if_neg (by omega)]
      rfl

/-- The array of a step is read only if some payload can hold it. -/
theorem blameless_varLen {source field lengthField : String} {input : Option Value}
    {element : Representation} {copy : Copy} {layout : FieldLayout} {count : Nat}
    (hLayout : encoder.fieldLayout source field = .ok layout)
    (hCount : lengthOf input lengthField = .ok count)
    (hFits : encoder.CopyFits layout.element copy) (hHolds : layout.Holds primitives)
    (hWritable : primitives.Writable)
    (hShaped : encoder.ShapedFor source input (.varLen field lengthField element copy))
    (hCalls : ∀ given,
      (copy, given) ∈ encoder.copied source input (.varLen field lengthField element copy) →
      encoder.CallsBlameless call copy given) (pos : Nat) :
    (encoder.varLen call field count copy (fieldOf input field) pos layout).Blameless := by
  intro out fault after hRun
  simp only [Encoder.varLen, Encode.get_bind] at hRun
  cases hReserve : reservation? count layout.elementSize out.cursor out.buffer.size with
  | none =>
    rw [hReserve] at hRun
    exact Encode.blameless_storeDescriptor pos 0 0 out fault after hRun
  | some length =>
    rw [hReserve] at hRun
    obtain ⟨rfl, hPositive, hBound⟩ := reservation?_eq_some hReserve
    refine (Encode.blameless_storeDescriptor pos _ _).bind (fun _ =>
      (Encode.blameless_advance _).bind fun _ =>
        Encode.blameless_elements (fun i hi pos => ?_) _) out fault after hRun
    have hCopied := element_mem_copied element copy hLayout hCount hPositive (by omega) hi
    exact blameless_assign hFits hHolds.element hWritable (hShaped.numbers copy _ hCopied)
      (hCalls _ hCopied) field pos

theorem blameless_union {source field discriminator : String} {input : Option Value}
    {record : RecordRef} {arms : List UnionArm} {layout : FieldLayout} {part : Option SizeTerm}
    (hFits : encoder.StepFits primitives layout part (.union field record discriminator arms))
    (hWritable : primitives.Writable)
    (hDefined : ∀ arm ∈ arms, ∃ n, encoder.valueOf arm.value = .ok n)
    (hShaped : encoder.ShapedFor source input (.union field record discriminator arms))
    (hCalls : ∀ copy given,
      (copy, given) ∈ encoder.copied source input (.union field record discriminator arms) →
      encoder.CallsBlameless call copy given) (pos : Nat) :
    (encoder.union call field record discriminator arms input pos layout).Blameless := by
  obtain ⟨selector, hPresent, hArm⟩ := hShaped.discriminator _ _ _ _ rfl
  have hSelector : integerOf (fieldOf input discriminator) discriminator = .ok selector := by
    rcases hPresent with ⟨hNone, rfl⟩ | ⟨value, hSome, hn⟩
    · rw [hNone, integerOf]
    · simp only [hSome, integerOf, hn]
  obtain ⟨arm, hSelected⟩ := exists_selectArm field hDefined hArm
  obtain ⟨variant, hVariant, _, _, hHolds, hCopy, _⟩ := hFits.2 arm (mem_of_selectArm hSelected)
  have hCopied := arm_mem_copied source record hSelector hSelected
  refine (Encode.blameless_fill pos _ 0).bind fun _ => .lift_ok_bind hSelector
    (.lift_ok_bind hSelected (.lift_ok_bind hVariant ?_))
  exact blameless_assign hCopy hHolds hWritable (hShaped.numbers _ _ hCopied) (hCalls _ _ hCopied)
    _ _

/-- A step has no errors that name a value if what it reads is of the right kind. -/
theorem blameless_step {source : String} {input : Option Value} {step : Step}
    {layout : FieldLayout} {part : Option SizeTerm}
    (hLayout : encoder.fieldLayout source step.field = .ok layout)
    (hHolds : layout.Holds primitives) (hFits : encoder.StepFits primitives layout part step)
    (hWritable : primitives.Writable)
    (hConstant : ∀ field value, step = .fixedScalar field value → layout.scalar ≠ none)
    (hDefined : ∀ literal ∈ step.literals, ∃ n, encoder.valueOf literal = .ok n)
    (hShaped : encoder.ShapedFor source input step)
    (hCalls : ∀ copy given, (copy, given) ∈ encoder.copied source input step →
      encoder.CallsBlameless call copy given) (base : Nat) :
    (encoder.step call source input base step).Blameless := by
  unfold Encoder.step
  refine .lift_ok_bind hLayout ?_
  cases step with
  | fixedScalar field value =>
      obtain ⟨n, hn⟩ := hDefined value List.mem_cons_self
      refine .lift_ok_bind hn ?_
      exact Encode.blameless_scalar (hConstant field value rfl) (hHolds.float_size hWritable) rfl
        _ _
  | fixedFill field value =>
      obtain ⟨n, hn⟩ := hDefined value List.mem_cons_self
      exact .lift_ok_bind hn (Encode.blameless_fill _ _ _)
  | assign field copy =>
      have hCopied : (copy, fieldOf input field) ∈
          encoder.copied source input (.assign field copy) := List.mem_cons_self
      exact blameless_assign hFits.1 hHolds hWritable (hShaped.numbers _ _ hCopied)
        (hCalls _ _ hCopied) field _
  | varLen field lengthField element copy =>
      obtain ⟨_, hCopy, _, _⟩ := hFits
      obtain ⟨count, hCount⟩ := exists_lengthOf (hShaped.count _ _ _ _ rfl)
      exact .lift_ok_bind hCount
        (blameless_varLen hLayout hCount hCopy hHolds hWritable hShaped (hCalls copy) _)
  | union field record discriminator arms =>
      exact blameless_union hFits hWritable
        (fun arm hArm => hDefined _ (List.mem_map_of_mem hArm)) hShaped hCalls _

/-- What the steps of a ready function are laid out for. -/
theorem Tiles.exists_place {source : String} {offset size : Nat} {steps : List Step}
    {parts : List (Option SizeTerm)}
    (h : encoder.Tiles primitives source offset steps parts size) {step : Step}
    (hStep : step ∈ steps) :
    ∃ layout part, encoder.fieldLayout source step.field = .ok layout ∧
      layout.Holds primitives ∧ encoder.StepFits primitives layout part step := by
  induction h with
  | nil => cases hStep
  | cons hLayout _ hHolds hFits _ ih =>
      rcases List.mem_cons.1 hStep with rfl | hStep
      · exact ⟨_, _, hLayout, hHolds, hFits⟩
      · exact ih hStep

/-- **Runs on well-shaped values**: no error names a value that was read. -/
theorem blameless_run {height : Nat} {function : EncodeFunction}
    (hReady : encoder.Ready primitives height function) (hWritable : primitives.Writable)
    (hConstants : encoder.ConstantsFit) (hDefined : encoder.Defined)
    (hFunction : encoder.encodeFunction function.source = .ok function) {input : Option Value}
    (hShaped : encoder.WellShaped function.source input) (fuel base : Nat) :
    (encoder.run fuel function input base).Blameless := by
  induction height generalizing function input fuel base with
  | zero => exact hReady.elim
  | succ height ih =>
      obtain ⟨⟨size, parts, _, hTiles, _⟩, hCalls⟩ := hReady
      cases fuel with
      | zero => exact Encode.Blameless.throw id
      | succ fuel =>
          show Encode.Blameless (if input.all Value.isRecord then _ else _)
          rw [if_pos (hShaped.records _ _ .root)]
          refine Encode.Blameless.forM fun step hStep => ?_
          obtain ⟨layout, part, hLayout, hHolds, hFits⟩ := hTiles.exists_place hStep
          have hMem := mem_of_encodeFunction hFunction
          refine blameless_step hLayout hHolds hFits hWritable ?_
            (hDefined function hMem step hStep)
            (hShaped.steps _ _ .root function hFunction step hStep)
            (fun copy given hCopied source hSource => ?_) base
          · rintro field value rfl
            exact hConstants function hMem field value layout hStep hLayout
          · obtain ⟨callee, hCallee, _, hReady⟩ :=
              hCalls step hStep copy (copy_mem_of_copied hCopied) source hSource
            refine ⟨callee, hCallee, fun part hPart pos => ?_⟩
            have hOpens := Opens.root.part hFunction hStep hCopied hSource hPart
            obtain rfl := source_of_encodeFunction hCallee
            exact ih hReady hCallee (hShaped.of_opens hOpens) fuel pos

/-! ## Sizes of well-shaped values -/

/-- Every part of a size belongs to a step. -/
theorem Tiles.exists_step {source : String} {offset size : Nat} {steps : List Step}
    {parts : List (Option SizeTerm)}
    (h : encoder.Tiles primitives source offset steps parts size) {part : Option SizeTerm}
    (hPart : part ∈ parts) :
    ∃ step ∈ steps, ∃ layout, encoder.fieldLayout source step.field = .ok layout ∧
      encoder.StepFits primitives layout part step := by
  induction h with
  | nil => cases hPart
  | cons hLayout _ _ hFits _ ih =>
      rcases List.mem_cons.1 hPart with rfl | hPart
      · exact ⟨_, List.mem_cons_self, _, hLayout, hFits⟩
      · obtain ⟨step, hStep, hRest⟩ := ih hPart
        exact ⟨step, List.mem_cons_of_mem _ hStep, hRest⟩

/-- A term counts the array that its step stores, or the payload of the record that its step
copies. -/
theorem StepFits.of_term {layout : FieldLayout} {term : SizeTerm} {step : Step}
    (h : encoder.StepFits primitives layout (some term) step)
    (hConstant : ∀ field value, step = .fixedScalar field value → layout.scalar ≠ none) :
    (∃ field lengthField element copy, step = .varLen field lengthField element copy ∧
        term = .varLen field lengthField element) ∨
      ∃ field source target called function,
        step = .assign field (.record source function true) ∧
          term = .nested field source target called := by
  cases step with
  | fixedScalar field value => exact absurd (h.2 (by simp)) (hConstant field value rfl)
  | fixedFill field value => cases h
  | assign field copy =>
      obtain ⟨_, hPart⟩ := h
      split at hPart
      · obtain ⟨target, called, hTerm⟩ := hPart
        exact .inr ⟨_, _, target, called, _, rfl, Option.some.inj hTerm⟩
      · cases hPart
  | varLen field lengthField element copy =>
      exact .inl ⟨_, _, _, _, rfl, Option.some.inj h.2.2.2⟩
  | union field record discriminator arms => cases h.1

/-- **Sizes of well-shaped values**: no error names a value that was read. -/
theorem blameless_dynamicSize {height : Nat} {function : EncodeFunction}
    (hReady : encoder.Ready primitives height function) (hConstants : encoder.ConstantsFit)
    (hFunction : encoder.encodeFunction function.source = .ok function)
    (hVarLen : function.varLen = true) {input : Option Value}
    (hShaped : encoder.WellShaped function.source input) {fuel : Nat} {fault : Fault}
    (hFault : encoder.dynamicSize fuel function.source input = .error fault) :
    ¬ fault.FromValue := by
  induction height generalizing function input fuel with
  | zero => exact hReady.elim
  | succ height ih =>
      cases fuel with
      | zero =>
          cases hFault
          exact id
      | succ fuel =>
          obtain ⟨⟨size, parts, hSize, hTiles, _, hTerms⟩, hCalls⟩ := hReady
          obtain ⟨sizes, hSizes, hParts⟩ := hTerms hVarLen
          have hMem := mem_of_encodeFunction hFunction
          rw [Encoder.dynamicSize, hSize, hSizes] at hFault
          obtain ⟨term, hTerm, hFault⟩ := exists_of_addTerms_error hFault
          rw [hParts, List.mem_filterMap] at hTerm
          obtain ⟨_, hPart, rfl⟩ := hTerm
          obtain ⟨step, hStep, layout, hLayout, hFits⟩ := hTiles.exists_step hPart
          have hConstant : ∀ field value, step = .fixedScalar field value →
              layout.scalar ≠ none := by
            rintro field value rfl
            exact hConstants function hMem field value layout hStep hLayout
          rcases hFits.of_term hConstant with
            ⟨field, lengthField, element, copy, rfl, rfl⟩ |
              ⟨field, source, target, called, name, rfl, rfl⟩
          · have hShape := hShaped.steps _ _ .root function hFunction _ hStep
            obtain ⟨count, hCount⟩ := exists_lengthOf (hShape.count _ _ _ _ rfl)
            rw [Encoder.termSize, show encoder.fieldLayout _ field = _ from hLayout,
              hCount] at hFault
            cases hFault
          · obtain ⟨callee, hCallee, hCalleeVarLen, hCalleeReady⟩ :=
              hCalls _ hStep _ List.mem_cons_self source rfl
            have hOpens : encoder.Opens function.source input source (fieldOf input field) :=
              .part .root hFunction hStep List.mem_cons_self rfl List.mem_cons_self
            obtain rfl := source_of_encodeFunction hCallee
            rcases bind_eq_error.1 hFault with hCall | ⟨total, _, hFault⟩
            · exact ih hCalleeReady hCallee hCalleeVarLen (hShaped.of_opens hOpens) hCall
            · obtain ⟨static, hStatic⟩ := hCalleeReady.exists_staticSize
              rw [hStatic] at hFault
              cases hFault

end Encoder

end WireSchema
