import WireSchema.Proofs.ClosedProgram
import WireSchema.Proofs.SafeExecution

/-!
# Values that encode alike

What an encode function does depends on the parts of its source value that its steps
read.  A relation between source values, one for each source type, is *blind* for an
encoder if related values agree in what the steps and the size terms of their type read,
and have related parts wherever a step or a term calls another function.  Blindly
related values are indistinguishable: every size, result and buffer is the same.

The two runs compared here may have different limits on chains of calls, because the
limit goes by the depth of the value.  In a program that calls only what stands before,
both limits are out of reach, so they make no difference.

## Main results

* `Encoder.Blind.run_congr`: encode functions cannot tell related values apart.
* `Encoder.Blind.dynamicSize_congr`: size functions cannot, either.
* `Encoder.Blind.encodes_alike`: nor can the encoder's entry points.
-/

namespace WireSchema

/-! ## What is read of a value -/

/-- Two values stand for the same numbers. -/
def SameNumber (a b : Option Value) : Prop :=
  ∀ field, integerOf a field = integerOf b field ∧ floatOf a field = floatOf b field

theorem SameNumber.refl (a : Option Value) : SameNumber a a :=
  fun _ => ⟨rfl, rfl⟩

theorem SameNumber.scalarBytes_eq {a b : Option Value} (h : SameNumber a b) (size : Nat)
    (slot : Option ScalarClass) (field : String) :
    scalarBytes size slot a field = scalarBytes size slot b field := by
  obtain ⟨hInteger, hFloat⟩ := h field
  unfold scalarBytes
  simp only [hInteger, hFloat]

theorem SameNumber.lengthOf_eq {a b : Option Value} {lengthField : String}
    (h : SameNumber (fieldOf a lengthField) (fieldOf b lengthField)) :
    lengthOf a lengthField = lengthOf b lengthField := by
  unfold lengthOf
  rw [(h lengthField).1]

section Reads

variable (same : String → Option Value → Option Value → Prop)

/-- Two values agree in what a copy reads of them. -/
def Copy.Reads (a b : Option Value) : Copy → Prop
  | .scalar => SameNumber a b
  | .array _ => ∀ i : Nat, SameNumber (itemsOf a)[i]? (itemsOf b)[i]?
  | .record source _ _ => same source a b
  | .recordArray source _ _ => ∀ i : Nat, same source (itemsOf a)[i]? (itemsOf b)[i]?

/-- Two values agree in what a step reads of them.  Of a union it reads the member that the
discriminator selects. -/
def Step.Reads (encoder : Encoder) (v w : Option Value) : Step → Prop
  | .fixedScalar .. => True
  | .fixedFill .. => True
  | .assign field copy => copy.Reads same (fieldOf v field) (fieldOf w field)
  | .varLen field lengthField _ copy =>
    SameNumber (fieldOf v lengthField) (fieldOf w lengthField) ∧
      ∀ i : Nat, copy.Reads same (itemsOf (fieldOf v field))[i]? (itemsOf (fieldOf w field))[i]?
  | .union field _ discriminator arms =>
    SameNumber (fieldOf v discriminator) (fieldOf w discriminator) ∧
      ∀ selector arm, integerOf (fieldOf v discriminator) discriminator = .ok selector →
        encoder.selectArm field selector arms = .ok arm →
        arm.copy.Reads same (fieldOf (fieldOf v field) arm.member)
          (fieldOf (fieldOf w field) arm.member)

/-- Two values agree in what a term of a size function reads of them. -/
def SizeTerm.Reads (v w : Option Value) : SizeTerm → Prop
  | .varLen _ lengthField _ => SameNumber (fieldOf v lengthField) (fieldOf w lengthField)
  | .nested field source _ _ => same source (fieldOf v field) (fieldOf w field)

/-- Related values agree in whatever the functions of their type read. -/
structure Encoder.Blind (encoder : Encoder) : Prop where
  isRecord : ∀ source v w, same source v w → v.all Value.isRecord = w.all Value.isRecord
  steps : ∀ function ∈ encoder.program.encodeFunctions, ∀ v w, same function.source v w →
    ∀ step ∈ function.steps, step.Reads same encoder v w
  terms : ∀ sizes ∈ encoder.program.sizeFunctions, ∀ v w, same sizes.source v w →
    ∀ term ∈ sizes.terms, term.Reads same v w

end Reads

/-! ## Runs that agree from some point on -/

/-- Computations that go on alike after every success of their first part are alike. -/
theorem bind_congr_of_ok {α β ε : Type} {x : Except ε α} {f g : α → Except ε β}
    (h : ∀ a, x = .ok a → f a = g a) : x >>= f = x >>= g := by
  cases x with
  | error e => rfl
  | ok a => exact h a rfl

namespace Encode

theorem lift_bind_congr {α β : Type} {x : Except Fault α} {f g : α → Encode β}
    (h : ∀ a, x = .ok a → f a = g a) : (liftM x >>= f) = (liftM x >>= g) := by
  cases x with
  | error fault => rfl
  | ok a =>
      funext out
      show f a out = g a out
      rw [h a rfl]

/-- Sequences of runs are alike if each run of one is like the same run of the other. -/
theorem forM_congr {α : Type} {f g : α → Encode Unit} {xs : List α} (h : ∀ x ∈ xs, f x = g x) :
    xs.forM f = xs.forM g := by
  induction xs with
  | nil => rfl
  | cons x xs ih =>
      show (f x >>= fun _ => xs.forM f) = (g x >>= fun _ => xs.forM g)
      rw [h x List.mem_cons_self, ih fun y hy => h y (List.mem_cons_of_mem x hy)]

/-- Elements are encoded alike if that holds for the items at each place. -/
theorem elements_congr {element other : Option Value → Nat → Encode Unit} {size count : Nat}
    {items others : List Value} (h : ∀ i : Nat, ∀ pos, element items[i]? pos = other others[i]? pos)
    (pos : Nat) : elements element size count items pos = elements other size count others pos := by
  induction count generalizing items others pos with
  | zero => rfl
  | succ count ih =>
      have hHead : element items.head? pos = other others.head? pos := by
        rw [List.head?_eq_getElem?, List.head?_eq_getElem?]
        exact h 0 pos
      have hTail : ∀ i : Nat, ∀ pos, element items.tail[i]? pos = other others.tail[i]? pos := by
        intro i pos
        rw [List.getElem?_tail, List.getElem?_tail]
        exact h (i + 1) pos
      rw [elements, elements, hHead, ih hTail]

theorem scalar_congr {a b : Option Value} (h : SameNumber a b) (pos size : Nat)
    (slot : Option ScalarClass) (field : String) :
    scalar pos size slot a field = scalar pos size slot b field := by
  unfold scalar
  rw [h.scalarBytes_eq]

end Encode

theorem Naming.mem_callees_cons {term : SizeTerm} {terms : List SizeTerm} {source : String}
    (h : source ∈ terms.filterMap callee?) : source ∈ (term :: terms).filterMap callee? := by
  obtain ⟨called, hCalled, hSource⟩ := List.mem_filterMap.1 h
  exact List.mem_filterMap.2 ⟨called, List.mem_cons_of_mem _ hCalled, hSource⟩

namespace Encoder

/-! ## Steps -/

section Steps

variable {encoder : Encoder} {same : String → Option Value → Option Value → Prop}
  {call other : EncodeCall} {v w : Option Value}

/-- Two ways to call functions cannot tell related values apart where a copy calls one. -/
def CallsAlike (encoder : Encoder) (same : String → Option Value → Option Value → Prop)
    (call other : EncodeCall) (copy : Copy) : Prop :=
  ∀ source, copy.callee? = some source → ∀ function, encoder.encodeFunction source = .ok function →
    ∀ a b pos, same source a b → call function a pos = other function b pos

theorem assign_congr {copy : Copy} (hCalls : encoder.CallsAlike same call other copy)
    (hReads : copy.Reads same v w) (field : String) (pos : Nat) (layout : FieldLayout) :
    encoder.assign call copy field v pos layout = encoder.assign other copy field w pos layout := by
  cases copy with
  | scalar => exact Encode.scalar_congr hReads _ _ _ _
  | array length =>
      refine Encode.elements_congr (fun i pos => ?_) pos
      exact Encode.scalar_congr (hReads i) _ _ _ _
  | record source function varLen =>
      refine Encode.lift_bind_congr fun callee hCallee => ?_
      exact hCalls source rfl callee hCallee v w pos hReads
  | recordArray source function length =>
      refine Encode.lift_bind_congr fun callee hCallee => ?_
      refine Encode.elements_congr (fun i pos => ?_) pos
      exact hCalls source rfl callee hCallee _ _ pos (hReads i)

theorem varLen_congr {copy : Copy} (hCalls : encoder.CallsAlike same call other copy)
    (hReads : ∀ i : Nat, copy.Reads same (itemsOf v)[i]? (itemsOf w)[i]?) (field : String)
    (count pos : Nat) (layout : FieldLayout) :
    encoder.varLen call field count copy v pos layout =
      encoder.varLen other field count copy w pos layout := by
  unfold Encoder.varLen
  refine bind_congr fun _ => bind_congr fun _ => ?_
  split
  · rfl
  · refine bind_congr fun _ => bind_congr fun _ => ?_
    refine Encode.elements_congr (fun i pos => ?_) _
    exact assign_congr hCalls (hReads i) _ _ _

theorem union_congr {field discriminator : String} {record : RecordRef} {arms : List UnionArm}
    (hCalls : ∀ arm ∈ arms, encoder.CallsAlike same call other arm.copy)
    (hReads : (Step.union field record discriminator arms).Reads same encoder v w) (pos : Nat)
    (layout : FieldLayout) :
    encoder.union call field record discriminator arms v pos layout =
      encoder.union other field record discriminator arms w pos layout := by
  obtain ⟨hSelector, hArms⟩ := hReads
  unfold Encoder.union
  rw [← (hSelector discriminator).1]
  refine bind_congr fun _ => Encode.lift_bind_congr fun selector hInteger => ?_
  refine Encode.lift_bind_congr fun arm hArm => Encode.lift_bind_congr fun variant _ => ?_
  exact assign_congr (hCalls arm (mem_of_selectArm hArm)) (hArms selector arm hInteger hArm) _ _ _

/-- A step encodes two values alike if they agree in what it reads. -/
theorem step_congr {step : Step} (hCalls : ∀ copy ∈ step.copies,
      encoder.CallsAlike same call other copy)
    (hReads : step.Reads same encoder v w) (source : String) (base : Nat) :
    encoder.step call source v base step = encoder.step other source w base step := by
  unfold Encoder.step
  refine bind_congr fun layout => ?_
  cases step with
  | fixedScalar field value => rfl
  | fixedFill field value => rfl
  | assign field copy => exact assign_congr (hCalls copy List.mem_cons_self) hReads _ _ _
  | varLen field lengthField element copy =>
      dsimp only
      rw [hReads.1.lengthOf_eq]
      exact bind_congr fun count =>
        varLen_congr (hCalls copy List.mem_cons_self) hReads.2 _ _ _ _
  | union field record discriminator arms =>
      exact union_congr (fun arm hArm => hCalls arm.copy (List.mem_map_of_mem hArm)) hReads _ _

end Steps

/-! ## Terms -/

theorem addTerms_congr_of_reads {encoder : Encoder}
    {same : String → Option Value → Option Value → Prop}
    {call other : String → Option Value → Except Fault Nat} {source : String} {v w : Option Value}
    {terms : List SizeTerm} (hReads : ∀ term ∈ terms, term.Reads same v w)
    (hCalls : ∀ nested ∈ terms.filterMap Naming.callee?, ∀ a b, same nested a b →
      call nested a = other nested b) (size : Nat) :
    encoder.addTerms call source v size terms = encoder.addTerms other source w size terms := by
  induction terms generalizing size with
  | nil => rfl
  | cons term rest ih =>
      have hHead := hReads term List.mem_cons_self
      have hTerm : encoder.termSize call source v term = encoder.termSize other source w term := by
        cases term with
        | varLen field lengthField element =>
            dsimp only [termSize]
            rw [SameNumber.lengthOf_eq hHead]
        | nested field nested target function =>
            dsimp only [termSize]
            rw [hCalls nested (by simp [Naming.callee?]) _ _ hHead]
      rw [addTerms, addTerms, hTerm]
      refine bind_congr fun more => ih (fun term hMem => ?_) (fun nested hMem => ?_) _
      · exact hReads term (List.mem_cons_of_mem _ hMem)
      · exact hCalls nested (Naming.mem_callees_cons hMem)

end Encoder

/-! ## Chains of calls -/

namespace Program

variable {program : Program}

/-- The place of the encode function of a source type. -/
def encodeRank (program : Program) (source : String) : Nat :=
  (program.encodeFunctions.map EncodeFunction.source).idxOf source

/-- The place of the size function of a source type. -/
def sizeRank (program : Program) (source : String) : Nat :=
  (program.sizeFunctions.map SizeFunction.source).idxOf source

theorem encodeRank_lt_length {function : EncodeFunction}
    (hFunction : function ∈ program.encodeFunctions) :
    program.encodeRank function.source < program.encodeFunctions.length := by
  have hLt := List.idxOf_lt_length_of_mem
    (List.mem_map_of_mem (f := EncodeFunction.source) hFunction)
  rwa [List.length_map] at hLt

theorem sizeRank_le_length (program : Program) (source : String) :
    program.sizeRank source ≤ program.sizeFunctions.length := by
  have hLe := List.idxOf_le_length
    (a := source) (l := program.sizeFunctions.map SizeFunction.source)
  rwa [List.length_map] at hLe

theorem CalleeFirst.encodeRank_lt (h : program.CalleeFirst) {function : EncodeFunction}
    (hFunction : function ∈ program.encodeFunctions) {step : Step} (hStep : step ∈ function.steps)
    {copy : Copy} (hCopy : copy ∈ step.copies) {source : String}
    (hSource : copy.callee? = some source) :
    program.encodeRank source < program.encodeRank function.source := by
  obtain ⟨before, after, hSplit⟩ := List.append_of_mem hFunction
  obtain ⟨name, hCall⟩ : ∃ name, copy.call? = some (source, name) := by
    cases copy <;> cases hSource <;> exact ⟨_, rfl⟩
  obtain ⟨callee, hCallee, rfl, _⟩ :=
    h.call_before before function after hSplit step hStep copy hCopy _ _ hCall
  have hNames := congrArg (List.map EncodeFunction.source) hSplit
  rw [List.map_append, List.map_cons] at hNames
  exact idxOf_lt_of_before h.nodup_encodeFunctions hNames (List.mem_map_of_mem hCallee)

/-- A size function stands behind those that it calls. -/
theorem CalleeFirst.callee_before (h : program.CalleeFirst) {before after : List SizeFunction}
    {sizes : SizeFunction} (hSplit : program.sizeFunctions = before ++ sizes :: after)
    {source : String} (hSource : source ∈ sizes.terms.filterMap Naming.callee?) :
    ∃ callee ∈ before, callee.source = source := by
  obtain ⟨term, hTerm, hCallee⟩ := List.mem_filterMap.1 hSource
  cases term with
  | varLen field lengthField element => cases hCallee
  | nested field nested target function =>
      cases hCallee
      obtain ⟨callee, hBefore, hName, _⟩ := h.nested_before before sizes after hSplit _ _ _ _ hTerm
      exact ⟨callee, hBefore, hName⟩

theorem CalleeFirst.sizeRank_lt (h : program.CalleeFirst) {sizes : SizeFunction}
    (hSizes : sizes ∈ program.sizeFunctions) {source : String}
    (hSource : source ∈ sizes.terms.filterMap Naming.callee?) :
    program.sizeRank source < program.sizeRank sizes.source := by
  obtain ⟨before, after, hSplit⟩ := List.append_of_mem hSizes
  obtain ⟨callee, hBefore, rfl⟩ := h.callee_before hSplit hSource
  have hNames := congrArg (List.map SizeFunction.source) hSplit
  rw [List.map_append, List.map_cons] at hNames
  exact idxOf_lt_of_before h.nodup_sizeFunctions hNames (List.mem_map_of_mem hBefore)

/-- A size function calls only size functions that are there. -/
theorem CalleeFirst.sizeFunction?_of_callee (h : program.CalleeFirst) {sizes : SizeFunction}
    (hSizes : sizes ∈ program.sizeFunctions) {source : String}
    (hSource : source ∈ sizes.terms.filterMap Naming.callee?) :
    (program.sizeFunction? source).isSome := by
  obtain ⟨before, after, hSplit⟩ := List.append_of_mem hSizes
  obtain ⟨callee, hBefore, hName⟩ := h.callee_before hSplit hSource
  rw [Program.sizeFunction?, find?_name_isSome, hSplit]
  exact List.mem_map.2 ⟨callee, List.mem_append_left _ hBefore, hName⟩

end Program

namespace Encoder.Blind

variable {encoder : Encoder} {same : String → Option Value → Option Value → Prop}

/-- **Encode functions are blind**: a function encodes related values alike, whatever the two
limits on chains of calls are, as long as they exceed its place. -/
theorem run_congr (h : encoder.Blind same) (hFirst : encoder.program.CalleeFirst)
    {fuel limit : Nat} {function : EncodeFunction}
    (hFunction : function ∈ encoder.program.encodeFunctions)
    (hFuel : encoder.program.encodeRank function.source < fuel)
    (hLimit : encoder.program.encodeRank function.source < limit) {v w : Option Value}
    (hSame : same function.source v w) (base : Nat) :
    encoder.run fuel function v base = encoder.run limit function w base := by
  induction fuel generalizing limit function v w base with
  | zero => exact absurd hFuel (Nat.not_lt_zero _)
  | succ fuel ih =>
      cases limit with
      | zero => exact absurd hLimit (Nat.not_lt_zero _)
      | succ limit =>
          have hSteps : ∀ step ∈ function.steps,
              encoder.step (encoder.run fuel) function.source v base step =
                encoder.step (encoder.run limit) function.source w base step := by
            intro step hStep
            refine step_congr (fun copy hCopy source hSource callee hCallee a b pos hPart => ?_)
              (h.steps function hFunction v w hSame step hStep) _ _
            have hRank := hFirst.encodeRank_lt hFunction hStep hCopy hSource
            obtain rfl := source_of_encodeFunction hCallee
            exact ih (mem_of_encodeFunction hCallee) (by omega) (by omega) hPart pos
          show encoder.runSteps (encoder.run fuel) function v base =
            encoder.runSteps (encoder.run limit) function w base
          unfold Encoder.runSteps
          rw [h.isRecord _ _ _ hSame]
          split
          · exact Encode.forM_congr hSteps
          · rfl

/-- **Size functions are blind** to what related values differ in. -/
theorem dynamicSize_congr (h : encoder.Blind same) (hFirst : encoder.program.CalleeFirst)
    {fuel limit : Nat} {source : String} (hFuel : encoder.program.sizeRank source < fuel)
    (hLimit : encoder.program.sizeRank source < limit) {v w : Option Value}
    (hSame : same source v w) :
    encoder.dynamicSize fuel source v = encoder.dynamicSize limit source w := by
  induction fuel generalizing limit source v w with
  | zero => exact absurd hFuel (Nat.not_lt_zero _)
  | succ fuel ih =>
      cases limit with
      | zero => exact absurd hLimit (Nat.not_lt_zero _)
      | succ limit =>
          unfold Encoder.dynamicSize
          refine bind_congr fun size => ?_
          cases hFind : encoder.program.sizeFunction? source with
          | none => rfl
          | some sizes =>
              have hSizes := List.mem_of_find?_eq_some hFind
              have hSource := List.find?_some hFind
              obtain rfl : sizes.source = source := eq_of_beq hSource
              refine addTerms_congr_of_reads (h.terms sizes hSizes v w hSame) ?_ size
              intro nested hNested a b hPart
              have hRank := hFirst.sizeRank_lt hSizes hNested
              exact ih (by omega) (by omega) hPart

variable {root : String} {v w : Value}

theorem encodedSize_congr (h : encoder.Blind same) (hFirst : encoder.program.CalleeFirst)
    (hSame : same root (some v) (some w)) :
    encoder.encodedSize root v = encoder.encodedSize root w := by
  unfold Encoder.encodedSize
  refine bind_congr_of_ok fun point hPoint => ?_
  have hSource := List.find?_some (entryPoint_eq_ok.1 hPoint)
  cases point.size with
  | static => rfl
  | dynamic function =>
      have hRank := encoder.program.sizeRank_le_length point.source
      dsimp only
      refine h.dynamicSize_congr hFirst (by omega) (by omega) ?_
      rw [eq_of_beq hSource]
      exact hSame

theorem encodeInto_congr (h : encoder.Blind same) (hFirst : encoder.program.CalleeFirst)
    (hSame : same root (some v) (some w)) (buffer : Array UInt8) :
    encoder.encodeInto root v buffer = encoder.encodeInto root w buffer := by
  unfold Encoder.encodeInto
  cases hPrepare : encoder.prepare root buffer.size with
  | error fault => rfl
  | ok found =>
      obtain ⟨point, needed, function⟩ := found
      obtain ⟨hPoint, _, _, hCalled⟩ := prepare_eq_ok hPrepare
      have hMem := mem_of_encodeFunction hCalled
      have hSource := List.find?_some hPoint
      have hRoot : function.source = root :=
        (source_of_encodeFunction hCalled).trans (eq_of_beq hSource)
      have hRank := Program.encodeRank_lt_length hMem
      have hRun := h.run_congr hFirst hMem
        (Nat.lt_of_lt_of_le hRank (encoder.length_le_callLimit v buffer.size))
        (Nat.lt_of_lt_of_le hRank (encoder.length_le_callLimit w buffer.size))
        (v := some v) (w := some w) (hRoot ▸ hSame) 0
      dsimp only
      rw [hRun]

/-- **Indistinguishable values**: values that the functions of a root cannot tell apart have
the same encoded size and the same encoding, and leave every buffer the same. -/
theorem encodes_alike (h : encoder.Blind same) (hFirst : encoder.program.CalleeFirst)
    (hSame : same root (some v) (some w)) :
    encoder.encodedSize root v = encoder.encodedSize root w ∧
      encoder.encode root v = encoder.encode root w ∧
      ∀ buffer, encoder.encodeInto root v buffer = encoder.encodeInto root w buffer := by
  have hSize := h.encodedSize_congr hFirst hSame
  have hInto := h.encodeInto_congr hFirst hSame
  refine ⟨hSize, ?_, hInto⟩
  unfold Encoder.encode
  rw [hSize]
  refine bind_congr fun size => ?_
  rw [hInto]

end Encoder.Blind

end WireSchema
