import WireSchema.Proofs.Indistinguishable

/-!
# Programs that match

The names of generated functions and types are for the reader of the rendered C.  A run does
not look at them: it goes by source names, and from the functions of a type it comes only to
the types that its steps refer to.

So two programs can differ in names, in order and in whatever else they contain, and still do
the same for a root.  Their parts *match* if they are made alike and refer to types among some
*included* ones; two encoders match if their parts for all included types do.

The functions of the two programs stand in different places, so the two runs have different
limits on chains of calls.  As for one program, both limits are out of reach.

## Main results

* `Encoder.MatchesOn.step_eq`, `Encoder.MatchesOn.run_eq`: matching functions write the same.
* `Encoder.MatchesOn.dynamicSize_eq`: matching size functions count the same.
* `Encoder.MatchesOn.encodes_same`: so do the entry points of matching encoders.
-/

namespace WireSchema

/-! ## Parts -/

section Parts

variable (included : String → Prop)

/-- The copies get the value to its place in the same way, by functions for the same type. -/
inductive Copy.Matches : Copy → Copy → Prop
  | scalar : Matches .scalar .scalar
  | array (length : Nat) : Matches (.array length) (.array length)
  | record {source : String} (function other : String) (varLen : Bool) : included source →
      Matches (.record source function varLen) (.record source other varLen)
  | recordArray {source : String} (function other : String) (length : Nat) : included source →
      Matches (.recordArray source function length) (.recordArray source other length)

/-- The arms are for the same discriminator and the same member. -/
structure UnionArm.Matches (arm other : UnionArm) : Prop where
  value : arm.value = other.value
  member : arm.member = other.member
  copy : arm.copy.Matches included other.copy

/-- The steps encode the same member alike. -/
inductive Step.Matches : Step → Step → Prop
  | fixedScalar (field : String) (value : Literal) :
      Matches (.fixedScalar field value) (.fixedScalar field value)
  | fixedFill (field : String) (value : Literal) :
      Matches (.fixedFill field value) (.fixedFill field value)
  | assign (field : String) {copy other : Copy} : copy.Matches included other →
      Matches (.assign field copy) (.assign field other)
  | varLen (field lengthField : String) (element elements : Representation) {copy other : Copy} :
      copy.Matches included other →
      Matches (.varLen field lengthField element copy) (.varLen field lengthField elements other)
  | union (field discriminator : String) {record other : RecordRef} {arms others : List UnionArm} :
      record.source = other.source → included record.source →
      List.Forall₂ (UnionArm.Matches included) arms others →
      Matches (.union field record discriminator arms) (.union field other discriminator others)

/-- The functions encode the same type, step by step alike. -/
structure EncodeFunction.Matches (function other : EncodeFunction) : Prop where
  source : function.source = other.source
  steps : List.Forall₂ (Step.Matches included) function.steps other.steps

/-- The terms add the same. -/
inductive SizeTerm.Matches : SizeTerm → SizeTerm → Prop
  | varLen (field lengthField : String) (element other : Representation) :
      Matches (.varLen field lengthField element) (.varLen field lengthField other)
  | nested (field : String) {source : String} (target function otherTarget other : String) :
      included source →
      Matches (.nested field source target function) (.nested field source otherTarget other)

/-- The entry points are for the same type, and both or neither call a size function. -/
structure EntryPoint.Matches (point other : EntryPoint) : Prop where
  source : point.source = other.source
  mem : included point.source
  varLen : point.varLen = other.varLen
  static_iff : point.size = .static ↔ other.size = .static

end Parts

/-- Every size function that an entry point calls is there. -/
def Program.SizesRoots (program : Program) : Prop :=
  ∀ point ∈ program.entryPoints, point.size ≠ .static →
    (program.sizeFunction? point.source).isSome

/-- The encoders have the same values for symbols, the same limit and matching parts for the
included types.  Both programs call what stands before. -/
structure Encoder.MatchesOn (encoder other : Encoder) (included : String → Prop) : Prop where
  first : encoder.program.CalleeFirst
  otherFirst : other.program.CalleeFirst
  sizesRoots : encoder.program.SizesRoots
  otherSizesRoots : other.program.SizesRoots
  constants : encoder.constants = other.constants
  maxAllocation : encoder.maxAllocation = other.maxAllocation
  layouts : ∀ name, included name → encoder.layouts.get? name = other.layouts.get? name
  encodeFunctions : ∀ name, included name →
    SameOutcome (EncodeFunction.Matches included) (encoder.encodeFunction name)
      (other.encodeFunction name)
  sizeFunctions : ∀ name, included name → ∀ sizes others,
    encoder.program.sizeFunction? name = some sizes →
    other.program.sizeFunction? name = some others →
    List.Forall₂ (SizeTerm.Matches included) sizes.terms others.terms

variable {encoder other : Encoder} {included : String → Prop}

theorem Step.Matches.field_eq {step twin : Step} (h : step.Matches included twin) :
    step.field = twin.field := by
  cases h <;> rfl

namespace Encoder.MatchesOn

/-! ## Looking up -/

theorem typeLayout_eq (h : encoder.MatchesOn other included) {source : String}
    (hSource : included source) : encoder.typeLayout source = other.typeLayout source := by
  unfold Encoder.typeLayout
  rw [h.layouts source hSource]

theorem fieldLayout_eq (h : encoder.MatchesOn other included) {source : String}
    (hSource : included source) (field : String) :
    encoder.fieldLayout source field = other.fieldLayout source field := by
  unfold Encoder.fieldLayout
  rw [h.typeLayout_eq hSource]

theorem staticSize_eq (h : encoder.MatchesOn other included) {source : String}
    (hSource : included source) : encoder.staticSize source = other.staticSize source := by
  unfold Encoder.staticSize
  rw [h.typeLayout_eq hSource]

theorem valueOf_eq (h : encoder.MatchesOn other included) (value : Literal) :
    encoder.valueOf value = other.valueOf value := by
  cases value with
  | int n => rfl
  | symbol name =>
      unfold Encoder.valueOf
      rw [h.constants]

/-- Both encoders select the arm at the same place. -/
theorem selectArm_outcome (h : encoder.MatchesOn other included) (field : String) (selector : Int64)
    {arms others : List UnionArm} (hArms : List.Forall₂ (UnionArm.Matches included) arms others) :
    SameOutcome (UnionArm.Matches included) (encoder.selectArm field selector arms)
      (other.selectArm field selector others) := by
  induction hArms with
  | nil => exact .error _
  | @cons arm twin arms others hHead _ ih =>
      rw [selectArm, selectArm, ← hHead.value, h.valueOf_eq]
      cases other.valueOf arm.value with
      | error fault => exact .error fault
      | ok value =>
          show SameOutcome _ (if value = selector then _ else _) (if value = selector then _ else _)
          split
          · exact .ok hHead
          · exact ih

/-! ## Steps -/

section Steps

variable {call otherCall : EncodeCall}

/-- Where both copies call matching functions of an included type, both calls do the same. -/
def CallsMatch (encoder other : Encoder) (included : String → Prop) (call otherCall : EncodeCall)
    (copy twin : Copy) : Prop :=
  ∀ source, copy.callee? = some source → twin.callee? = some source → included source →
    ∀ function, encoder.encodeFunction source = .ok function →
    ∀ counterpart, other.encodeFunction source = .ok counterpart →
    function.Matches included counterpart →
    ∀ value pos, call function value pos = otherCall counterpart value pos

theorem assign_eq (h : encoder.MatchesOn other included) {copy twin : Copy}
    (hCopy : copy.Matches included twin)
    (hCalls : CallsMatch encoder other included call otherCall copy twin)
    (field : String) (value : Option Value) (pos : Nat) (layout : FieldLayout) :
    encoder.assign call copy field value pos layout =
      other.assign otherCall twin field value pos layout := by
  cases hCopy with
  | scalar => rfl
  | array length => rfl
  | record function name varLen hSource =>
      apply Encode.lift_bind_eq (h.encodeFunctions _ hSource)
      intro callee counterpart hCallee hCounterpart hMatches
      exact hCalls _ rfl rfl hSource callee hCallee counterpart hCounterpart hMatches value pos
  | recordArray function name length hSource =>
      apply Encode.lift_bind_eq (h.encodeFunctions _ hSource)
      intro callee counterpart hCallee hCounterpart hMatches
      apply Encode.elements_congr
      intro i pos
      exact hCalls _ rfl rfl hSource callee hCallee counterpart hCounterpart hMatches _ pos

theorem varLen_eq (h : encoder.MatchesOn other included) {copy twin : Copy}
    (hCopy : copy.Matches included twin)
    (hCalls : CallsMatch encoder other included call otherCall copy twin)
    (field : String) (count : Nat) (items : Option Value) (pos : Nat) (layout : FieldLayout) :
    encoder.varLen call field count copy items pos layout =
      other.varLen otherCall field count twin items pos layout := by
  have hAssign : encoder.assign call copy = other.assign otherCall twin := by
    funext field value pos layout
    exact h.assign_eq hCopy hCalls field value pos layout
  unfold Encoder.varLen
  rw [hAssign]

theorem union_eq (h : encoder.MatchesOn other included) {record otherRecord : RecordRef}
    (hRecord : record.source = otherRecord.source) (hIncluded : included record.source)
    {arms others : List UnionArm} (hArms : List.Forall₂ (UnionArm.Matches included) arms others)
    (hCalls : ∀ arm ∈ arms, ∀ twin ∈ others,
      CallsMatch encoder other included call otherCall arm.copy twin.copy)
    (field discriminator : String) (input : Option Value) (pos : Nat) (layout : FieldLayout) :
    encoder.union call field record discriminator arms input pos layout =
      other.union otherCall field otherRecord discriminator others input pos layout := by
  unfold Encoder.union
  refine bind_congr fun _ => bind_congr fun selector => ?_
  apply Encode.lift_bind_eq (h.selectArm_outcome field selector hArms)
  intro arm twin hArm hTwin hMatches
  rw [← hRecord, h.fieldLayout_eq hIncluded, ← hMatches.member]
  refine bind_congr fun variant => ?_
  exact h.assign_eq hMatches.copy
    (hCalls arm (mem_of_selectArm hArm) twin (mem_of_selectArm hTwin)) _ _ _ _

/-- Matching steps of an included type write the same. -/
theorem step_eq (h : encoder.MatchesOn other included) {source : String} (hSource : included source)
    {step twin : Step} (hStep : step.Matches included twin)
    (hCalls : ∀ copy ∈ step.copies, ∀ otherCopy ∈ twin.copies,
      CallsMatch encoder other included call otherCall copy otherCopy)
    (input : Option Value) (base : Nat) :
    encoder.step call source input base step = other.step otherCall source input base twin := by
  unfold Encoder.step
  rw [h.fieldLayout_eq hSource, hStep.field_eq]
  refine bind_congr fun layout => ?_
  cases hStep with
  | fixedScalar field value =>
      dsimp only
      rw [h.valueOf_eq]
  | fixedFill field value =>
      dsimp only
      rw [h.valueOf_eq]
  | assign field hCopy =>
      exact h.assign_eq hCopy (hCalls _ List.mem_cons_self _ List.mem_cons_self) _ _ _ _
  | varLen field lengthField element elements hCopy =>
      dsimp only
      refine bind_congr fun count => ?_
      exact h.varLen_eq hCopy (hCalls _ List.mem_cons_self _ List.mem_cons_self) _ _ _ _ _
  | union field discriminator hRecord hIncluded hArms =>
      apply h.union_eq hRecord hIncluded hArms
      intro arm hArm twin hTwin
      exact hCalls _ (List.mem_map_of_mem hArm) _ (List.mem_map_of_mem hTwin)

end Steps

/-! ## Encode functions -/

/-- **Matching functions** write the same, whatever the two limits on chains of calls are, as
long as each exceeds the place of its function. -/
theorem run_eq (h : encoder.MatchesOn other included) {fuel limit : Nat}
    {function twin : EncodeFunction} (hMatches : function.Matches included twin)
    (hIncluded : included function.source)
    (hFunction : function ∈ encoder.program.encodeFunctions)
    (hTwin : twin ∈ other.program.encodeFunctions)
    (hFuel : encoder.program.encodeRank function.source < fuel)
    (hLimit : other.program.encodeRank twin.source < limit) (value : Option Value) (base : Nat) :
    encoder.run fuel function value base = other.run limit twin value base := by
  induction fuel generalizing limit function twin value base with
  | zero => exact absurd hFuel (Nat.not_lt_zero _)
  | succ fuel ih =>
      cases limit with
      | zero => exact absurd hLimit (Nat.not_lt_zero _)
      | succ limit =>
          have hSteps : function.steps.forM
                (encoder.step (encoder.run fuel) function.source value base) =
              twin.steps.forM (other.step (other.run limit) function.source value base) := by
            apply Encode.forM_eq_of_forall₂ hMatches.steps
            intro step hStep twinStep hTwinStep hAlike
            apply h.step_eq hIncluded hAlike
            intro copy hCopy otherCopy hOtherCopy source hSource hOtherSource hReached callee
              hCallee counterpart hCounterpart hCalled value pos
            -- Each callee stands before its caller, so the limits that are left suffice.
            have hRank := h.first.encodeRank_lt hFunction hStep hCopy hSource
            have hOtherRank := h.otherFirst.encodeRank_lt hTwin hTwinStep hOtherCopy hOtherSource
            rw [← source_of_encodeFunction hCallee] at hRank hReached
            rw [← source_of_encodeFunction hCounterpart] at hOtherRank
            exact ih hCalled hReached (mem_of_encodeFunction hCallee)
              (mem_of_encodeFunction hCounterpart) (by omega) (by omega) value pos
          show encoder.runSteps (encoder.run fuel) function value base =
            other.runSteps (other.run limit) twin value base
          unfold Encoder.runSteps
          rw [← hMatches.source, hSteps]

/-! ## Size functions -/

theorem addTerms_eq (h : encoder.MatchesOn other included) {source : String}
    (hSource : included source) {terms others : List SizeTerm}
    (hTerms : List.Forall₂ (SizeTerm.Matches included) terms others)
    {call otherCall : String → Option Value → Except Fault Nat}
    (hCalls : ∀ nested ∈ terms.filterMap Naming.callee?, nested ∈ others.filterMap Naming.callee? →
      included nested → ∀ value, call nested value = otherCall nested value)
    (value : Option Value) (size : Nat) :
    encoder.addTerms call source value size terms =
      other.addTerms otherCall source value size others := by
  induction hTerms generalizing size with
  | nil => rfl
  | @cons term twin terms others hHead _ ih =>
      have hRest : ∀ size, encoder.addTerms call source value size terms =
          other.addTerms otherCall source value size others := by
        apply ih
        intro nested hNested hTwin
        exact hCalls nested (Naming.mem_callees_cons hNested) (Naming.mem_callees_cons hTwin)
      have hTerm : encoder.termSize call source value term =
          other.termSize otherCall source value twin := by
        cases hHead with
        | varLen field lengthField element otherElement =>
            dsimp only [termSize]
            rw [h.fieldLayout_eq hSource]
        | @nested field nested target function otherTarget otherFunction hNested =>
            dsimp only [termSize]
            rw [h.staticSize_eq hNested, hCalls nested (by simp [Naming.callee?])
              (by simp [Naming.callee?]) hNested]
      rw [addTerms, addTerms, hTerm]
      exact bind_congr fun more => hRest _

/-- **Matching size functions** count the same. -/
theorem dynamicSize_eq (h : encoder.MatchesOn other included) {fuel limit : Nat} {source : String}
    (hIncluded : included source) (hSized : (encoder.program.sizeFunction? source).isSome)
    (hOther : (other.program.sizeFunction? source).isSome)
    (hFuel : encoder.program.sizeRank source < fuel)
    (hLimit : other.program.sizeRank source < limit) (value : Option Value) :
    encoder.dynamicSize fuel source value = other.dynamicSize limit source value := by
  induction fuel generalizing limit source value with
  | zero => exact absurd hFuel (Nat.not_lt_zero _)
  | succ fuel ih =>
      cases limit with
      | zero => exact absurd hLimit (Nat.not_lt_zero _)
      | succ limit =>
          obtain ⟨sizes, hSizes⟩ := Option.isSome_iff_exists.1 hSized
          obtain ⟨others, hOthers⟩ := Option.isSome_iff_exists.1 hOther
          have hTerms := h.sizeFunctions source hIncluded sizes others hSizes hOthers
          unfold Encoder.dynamicSize
          rw [h.staticSize_eq hIncluded, hSizes, hOthers]
          refine bind_congr fun size => ?_
          apply h.addTerms_eq hIncluded hTerms
          intro nested hNested hTwin hReached value
          obtain ⟨hMem, rfl⟩ := (find?_name_eq_some h.first.nodup_sizeFunctions).1 hSizes
          obtain ⟨hOtherMem, hSame⟩ :=
            (find?_name_eq_some h.otherFirst.nodup_sizeFunctions).1 hOthers
          have hRank := h.first.sizeRank_lt hMem hNested
          have hOtherRank := h.otherFirst.sizeRank_lt hOtherMem hTwin
          rw [hSame] at hOtherRank
          exact ih hReached (h.first.sizeFunction?_of_callee hMem hNested)
            (h.otherFirst.sizeFunction?_of_callee hOtherMem hTwin) (by omega) (by omega) value

/-! ## Entry points -/

section EntryPoints

variable {root : String} (h : encoder.MatchesOn other included)
  (hPoints : SameOutcome (EntryPoint.Matches included) (encoder.entryPoint root)
    (other.entryPoint root))

include h hPoints

theorem encodedSize_eq (value : Value) :
    encoder.encodedSize root value = other.encodedSize root value := by
  unfold Encoder.encodedSize
  apply hPoints.bind_eq
  intro point twin hPoint hTwin hMatches
  have hMem := List.mem_of_find?_eq_some (entryPoint_eq_ok.1 hPoint)
  have hTwinMem := List.mem_of_find?_eq_some (entryPoint_eq_ok.1 hTwin)
  rw [← hMatches.source]
  cases hSize : point.size with
  | static =>
      rw [hMatches.static_iff.1 hSize]
      exact h.staticSize_eq hMatches.mem
  | dynamic function =>
      cases hOther : twin.size with
      | static => cases hSize.symm.trans (hMatches.static_iff.2 hOther)
      | dynamic otherFunction =>
          have hSized := h.sizesRoots point hMem (by simp [hSize])
          have hOtherSized := h.otherSizesRoots twin hTwinMem (by simp [hOther])
          have hRank := encoder.program.sizeRank_le_length point.source
          have hOtherRank := other.program.sizeRank_le_length point.source
          rw [← hMatches.source] at hOtherSized
          exact h.dynamicSize_eq hMatches.mem hSized hOtherSized (by omega) (by omega) _

/-- Both encoders start from matching functions, or fail alike. -/
theorem prepare_outcome (size : Nat) :
    SameOutcome (fun start twin => start.1.Matches included twin.1 ∧ start.2.1 = twin.2.1 ∧
        start.2.2.Matches included twin.2.2)
      (encoder.prepare root size) (other.prepare root size) := by
  unfold Encoder.prepare
  apply hPoints.bind
  intro point twin hMatches
  rw [← hMatches.source, h.staticSize_eq hMatches.mem]
  cases other.staticSize point.source with
  | error fault => exact .error fault
  | ok needed =>
      show SameOutcome _ (if size < needed then _ else _) (if size < needed then _ else _)
      split
      · exact .error _
      · apply (h.encodeFunctions point.source hMatches.mem).bind
        intro function other hFunction
        exact .ok ⟨hMatches, rfl, hFunction⟩

theorem encodeInto_eq (value : Value) (buffer : Array UInt8) :
    encoder.encodeInto root value buffer = other.encodeInto root value buffer := by
  unfold Encoder.encodeInto
  rcases (h.prepare_outcome hPoints buffer.size).cases_eq with
    ⟨fault, hStart, hOther⟩ | ⟨start, twin, hStart, hOther, hMatches⟩
  · rw [hStart, hOther]
  · obtain ⟨point, needed, function⟩ := start
    obtain ⟨otherPoint, otherNeeded, otherFunction⟩ := twin
    obtain ⟨hPoint, rfl, hFunction⟩ := hMatches
    obtain ⟨_, _, _, hCalled⟩ := prepare_eq_ok hStart
    obtain ⟨_, _, _, hOtherCalled⟩ := prepare_eq_ok hOther
    have hMem := mem_of_encodeFunction hCalled
    have hOtherMem := mem_of_encodeFunction hOtherCalled
    have hIncluded : included function.source := by
      rw [source_of_encodeFunction hCalled]
      exact hPoint.mem
    have hFuel := Nat.lt_of_lt_of_le (Program.encodeRank_lt_length hMem)
      (encoder.length_le_callLimit value buffer.size)
    have hLimit := Nat.lt_of_lt_of_le (Program.encodeRank_lt_length hOtherMem)
      (other.length_le_callLimit value buffer.size)
    rw [hStart, hOther]
    dsimp only
    rw [h.run_eq hFunction hIncluded hMem hOtherMem hFuel hLimit, hPoint.varLen]

/-- **Matching encoders** compute the same encoded size, give the same bytes and leave every
buffer the same. -/
theorem encodes_same (value : Value) :
    encoder.encodedSize root value = other.encodedSize root value ∧
      encoder.encode root value = other.encode root value ∧
      ∀ buffer, encoder.encodeInto root value buffer = other.encodeInto root value buffer := by
  have hSize := h.encodedSize_eq hPoints value
  have hInto := h.encodeInto_eq hPoints value
  refine ⟨hSize, ?_, hInto⟩
  unfold Encoder.encode
  rw [hSize, h.maxAllocation]
  refine bind_congr fun size => ?_
  rw [hInto]

end EntryPoints

end Encoder.MatchesOn

end WireSchema
