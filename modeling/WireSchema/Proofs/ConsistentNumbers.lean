import WireSchema.Proofs.PackedSizes
import WireSchema.Proofs.ShownValues

/-!
# Encodings are consistent with themselves

A receiver does not have the source value.  It takes the length of an array from the length
field, and the active member of a union from the discriminator, both as it finds them in the
packed type.  Whoever encodes takes them from the source value.  The two agree where a member
holds a single number and its place can hold that number, unless a constant is written in
place of the number.

## Main definitions

* `Encoder.numberAt?`: what a receiver reads.
* `Encoder.Carries`: a visit writes the number of its source value.
* `Encoder.Consistent`: what a receiver reads at a visit fits together.

## Main results

* `Deployed.numberAt?_of_constant`, `Deployed.numberAt?_of_carries`: what is read is what was
  written.
* `received_numbers_consistent`: descriptors and active members agree with what is read.
-/

namespace WireSchema

/-- The primitive type of a member that holds a single scalar. -/
def Program.scalar? (program : Program) (primitives : Primitives) (source field : String) :
    Option Primitive := do
  let type ← program.type? source
  let member ← type.members.find? (·.name == field)
  match member.placement, member.arrayLength with
  | .value (.primitive spec), none => primitives.resolve? spec
  | _, _ => none

theorem Program.scalar?_eq_some {program : Program} {primitives : Primitives}
    {source field : String} {primitive : Primitive}
    (h : program.scalar? primitives source field = some primitive) :
    ∃ type member spec, program.type? source = some type ∧
      type.members.find? (·.name == field) = some member ∧
      member.placement = .value (.primitive spec) ∧ member.arrayLength = none ∧
      primitives.resolve? spec = some primitive := by
  obtain ⟨type, hType, h⟩ := Option.bind_eq_some_iff.1 h
  obtain ⟨member, hMember, h⟩ := Option.bind_eq_some_iff.1 h
  split at h
  · rename_i spec hPlacement hPlain
    exact ⟨type, member, spec, hType, hMember, hPlacement, hPlain, h⟩
  · cases h

/-- In the place of a single scalar stands a value of the source or a constant. -/
theorem Step.scalar_of_fits {program : Program} {packed : PackedMember} {spec : String}
    (step : Step) (h : step.Fits program packed)
    (hPlacement : packed.placement = .value (.primitive spec))
    (hPlain : packed.arrayLength = none) :
    step = .assign step.field .scalar ∨ ∃ value, step = .fixedScalar step.field value := by
  cases step with
  | fixedScalar field value => exact .inr ⟨value, rfl⟩
  | fixedFill field value =>
      obtain ⟨_, _, _, hArray⟩ := h
      rw [hPlain] at hArray
      cases hArray
  | assign field copy =>
      obtain ⟨representation, hValue, hCopy⟩ := h
      rw [hPlacement] at hValue
      cases hValue
      cases copy with
      | scalar => exact .inl rfl
      | array length =>
          have hArray : packed.arrayLength = some length := hCopy
          rw [hPlain] at hArray
          cases hArray
      | record source name varLen => exact hCopy.elim
      | recordArray source name length => exact hCopy.elim
  | varLen field lengthField element copy =>
      have hDescriptor := h.1
      rw [hPlacement] at hDescriptor
      cases hDescriptor
  | union field record discriminator arms =>
      have hRecord := h.1
      rw [hPlacement] at hRecord
      cases hRecord

namespace Encoder

variable {encoder : Encoder} {primitives : Primitives} {bytes : Array UInt8} {visit : Visit}

/-- The number that a receiver reads in a member of the packed type at `base`. -/
def numberAt? (encoder : Encoder) (primitives : Primitives) (bytes : Array UInt8)
    (source : String) (base : Nat) (field : String) : Option Int := do
  let primitive ← encoder.program.scalar? primitives source field
  let layout ← (encoder.fieldLayout source field).toOption
  (naturalAt? bytes (base + layout.offset) primitive.size).bind primitive.interpret?

/-- A member holds a single scalar, its place can hold the number that the source value has
for it, and no other number is written there as a constant. -/
def Carries (encoder : Encoder) (primitives : Primitives) (visit : Visit) (field : String) :
    Prop :=
  (∃ primitive, encoder.program.scalar? primitives visit.function.source field = some primitive ∧
    ∀ n, integerOf (fieldOf visit.input field) field = .ok n → primitive.CanHold n) ∧
  ∀ value, .fixedScalar field value ∈ visit.function.steps →
    encoder.valueOf value = integerOf (fieldOf visit.input field) field

/-- A visit has written the member of an arm to a union: its scalars are there, and so are the
structures in it. -/
def HasActive (encoder : Encoder) (bytes : Array UInt8) (visit : Visit) (field : String)
    (record : RecordRef) (arm : UnionArm) : Prop :=
  ∃ layout variant, encoder.fieldLayout visit.function.source field = .ok layout ∧
    encoder.fieldLayout record.source arm.member = .ok variant ∧
    CopyShown bytes variant arm.member (fieldOf (fieldOf visit.input field) arm.member)
      (visit.base + layout.offset + variant.offset) arm.copy ∧
    ∀ next, encoder.CopyEnters variant.elementSize
        (fieldOf (fieldOf visit.input field) arm.member)
        (visit.base + layout.offset + variant.offset) arm.copy next →
      encoder.Enters bytes visit next

/-- What a receiver reads in the packed type of a visit fits together.

The number in a length field, times the size of an element, is the length in the descriptor.
The number in a discriminator is the constant of the arm whose member is in the union.  Both
are so if the member carries the number of the source value; in any case the descriptor
has the length, and the union the member, that the source value asks for.  A member that is
given a constant holds it, whatever the source value says. -/
structure Consistent (encoder : Encoder) (primitives : Primitives) (bytes : Array UInt8)
    (visit : Visit) : Prop where
  lengths : ∀ {field lengthField element copy},
    .varLen field lengthField element copy ∈ visit.function.steps →
    ∃ layout offset length count, encoder.fieldLayout visit.function.source field = .ok layout ∧
      descriptorAt? bytes (visit.base + layout.offset) = some (offset, length) ∧
      lengthOf visit.input lengthField = .ok count ∧ length = count * layout.elementSize ∧
      (encoder.Carries primitives visit lengthField →
        ∃ number : Int, encoder.numberAt? primitives bytes visit.function.source visit.base
            lengthField = some number ∧ number * layout.elementSize = length)
  selectors : ∀ {field record discriminator arms},
    .union field record discriminator arms ∈ visit.function.steps →
    ∃ arm ∈ arms, ∃ selector, encoder.valueOf arm.value = .ok selector ∧
      integerOf (fieldOf visit.input discriminator) discriminator = .ok selector ∧
      encoder.HasActive bytes visit field record arm ∧
      (encoder.Carries primitives visit discriminator →
        encoder.numberAt? primitives bytes visit.function.source visit.base discriminator =
          some selector.toInt)
  constants : ∀ {field value primitive n}, .fixedScalar field value ∈ visit.function.steps →
    encoder.program.scalar? primitives visit.function.source field = some primitive →
    encoder.valueOf value = .ok n → primitive.CanHold n →
    encoder.numberAt? primitives bytes visit.function.source visit.base field = some n.toInt

/-! ## Look-ups -/

/-- A union is encoded with an arm whose constant its discriminator has. -/
theorem valueOf_of_selectArm {field : String} {selector : Int64} {arms : List UnionArm}
    {arm : UnionArm} (h : encoder.selectArm field selector arms = .ok arm) :
    encoder.valueOf arm.value = .ok selector := by
  induction arms with
  | nil => cases h
  | cons first rest ih =>
      obtain ⟨n, hValue, h⟩ := bind_eq_ok.1 h
      split at h
      · rename_i hEq
        rw [← pure_eq_ok.1 h, hValue, hEq]
      · exact ih h

theorem Starts.unique {root : String} {value : Value} {start other : Visit}
    (h : encoder.Starts root value start) (hOther : encoder.Starts root value other) :
    start = other := by
  obtain ⟨point, hPoint, hFunction, hInput, hBase⟩ := h
  obtain ⟨same, hSame, hOtherFunction, hOtherInput, hOtherBase⟩ := hOther
  cases hPoint.symm.trans hSame
  have hCallee := Except.ok.inj (hFunction.symm.trans hOtherFunction)
  cases start
  cases other
  simp_all

/-- Visits are runs of functions of the program. -/
theorem Visits.mem {start : Visit} (h : encoder.Visits bytes start visit)
    (hStart : start.function ∈ encoder.program.encodeFunctions) :
    visit.function ∈ encoder.program.encodeFunctions := by
  induction h with
  | refl => exact hStart
  | tail _ hEnters _ =>
      obtain ⟨step, _, hStep⟩ := hEnters
      obtain ⟨_, _, _, _, hFunction⟩ := hStep.callee
      exact mem_of_encodeFunction hFunction

end Encoder

namespace Deployed

variable {declarations : Declarations} {request : Request} {naming : Naming}
  {encoder : Encoder} {primitives : Primitives} {bytes : Array UInt8} {visit : Visit}

/-- The step of a packed member fits it, but for a constant in the place of a record. -/
theorem exists_step_of_member (h : Deployed declarations request naming encoder primitives)
    {function : EncodeFunction} (hFunction : function ∈ encoder.program.encodeFunctions)
    {type : PackedType} (hType : encoder.program.type? function.source = some type)
    {packed : PackedMember} (hPacked : packed ∈ type.members) :
    ∃ step ∈ function.steps, step.field = packed.name ∧
      (step.Fits encoder.program packed ∨ ∃ ref, packed.placement = .value (.record ref)) := by
  obtain ⟨hTypeMem, hTypeSource⟩ := h.compiled.type?_eq_some.1 hType
  obtain ⟨entry, hEntry, declaration, hMade, hGet, hMembers⟩ :=
    h.compiled.exists_declaration hTypeMem
  obtain ⟨hSource, _, hPackeds⟩ := Naming.packedType_eq_ok hMade
  obtain ⟨member, hMember, hPacks⟩ := exists_left_of_mem hPackeds hPacked
  obtain ⟨other, hOther, hEncodes⟩ := h.compiled.exists_entry hFunction
  obtain ⟨hFunctionSource, _, hSteps⟩ := Naming.encodeFunction_eq_ok hEncodes
  have hGraph := TypeGraph.entriesOf_subset hEntry
  obtain rfl : other = entry := h.compiled.sound.eq_of_name_eq hOther hGraph
    (hFunctionSource.symm.trans (hTypeSource.symm.trans hSource))
  obtain ⟨step, hStep, hLowered⟩ := exists_right_of_mem hSteps hMember
  have hDecided : member.Decided :=
    h.decided type hTypeMem declaration hGet member (hMembers ▸ hMember)
  refine ⟨step, hStep,
    (Compiled.step_field hLowered).trans (Naming.packedMember_eq_ok hPacks).1.symm, ?_⟩
  rcases Compiled.coherent_or_constant hLowered hPacks hDecided with
    hCoherent | ⟨_, _, ref, _, hRecord, _⟩
  · exact .inl (h.compiled.fits_of_coherent hEntry hMember hLowered hPacks hCoherent)
  · exact .inr ⟨ref, hRecord⟩

/-- A member that holds a single scalar is given a constant or the value of the source. -/
theorem exists_scalar_step (h : Deployed declarations request naming encoder primitives)
    {function : EncodeFunction} (hFunction : function ∈ encoder.program.encodeFunctions)
    {field : String} {primitive : Primitive}
    (hScalar : encoder.program.scalar? primitives function.source field = some primitive) :
    .assign field .scalar ∈ function.steps ∨
      ∃ value, .fixedScalar field value ∈ function.steps := by
  obtain ⟨type, packed, spec, hType, hFind, hPlacement, hPlain, _⟩ :=
    Program.scalar?_eq_some hScalar
  have hName : packed.name = field := by simpa using List.find?_some hFind
  obtain ⟨step, hStep, hField, hFits | ⟨ref, hRecord⟩⟩ :=
    h.exists_step_of_member hFunction hType (List.mem_of_find?_eq_some hFind)
  · rw [hName] at hField
    rcases step.scalar_of_fits hFits hPlacement hPlain with hCopy | ⟨value, hConstant⟩
    · exact .inl (hField ▸ hCopy ▸ hStep)
    · exact .inr ⟨value, hField ▸ hConstant ▸ hStep⟩
  · rw [hPlacement] at hRecord
    cases hRecord

/-- The number of a scalar that is shown is read. -/
theorem numberAt?_of_shown (h : Deployed declarations request naming encoder primitives)
    {source field : String} {primitive : Primitive} {layout : FieldLayout} {base : Nat}
    {value : Option Value} {n : Int64}
    (hScalar : encoder.program.scalar? primitives source field = some primitive)
    (hLayout : encoder.fieldLayout source field = .ok layout)
    (hShown : Encoder.ScalarShown bytes layout field value (base + layout.offset))
    (hValue : integerOf value field = .ok n) (hHolds : primitive.CanHold n) :
    encoder.numberAt? primitives bytes source base field = some n.toInt := by
  obtain ⟨type, member, spec, hType, hMember, hPlacement, _, hResolve⟩ :=
    Program.scalar?_eq_some hScalar
  obtain ⟨written, hWritten, hBytes⟩ := hShown
  obtain ⟨found, hFound, hPlace⟩ : ∃ found,
      (encoder.reference primitives 0).member? source field = some found ∧
        layout.PlaceOf primitives _ found :=
    h.compiled.placeOf_of_fieldLayout h.layouts h.fields hLayout
  have hSame : found = member := by
    unfold Reference.member? Encoder.reference at hFound
    dsimp only at hFound
    rw [hType] at hFound
    exact Option.some.inj (hFound.symm.trans hMember)
  cases hClass : layout.scalar with
  | none =>
      rw [hClass] at hWritten
      cases hWritten
  | some scalar =>
      obtain ⟨other, hSpec, hOther⟩ := hPlace.represents scalar hClass
      rw [hSame, hPlacement] at hSpec
      cases hSpec
      cases hResolve.symm.trans hOther
      rw [hClass] at hWritten
      unfold Encoder.numberAt?
      rw [hScalar, hLayout]
      exact hBytes.number hWritten hValue hHolds

/-- A constant is read where it is written. -/
theorem numberAt?_of_constant (h : Deployed declarations request naming encoder primitives)
    {field : String} {value : Literal} {primitive : Primitive} {n : Int64}
    (hShown : encoder.StepShown bytes visit (.fixedScalar field value))
    (hScalar : encoder.program.scalar? primitives visit.function.source field = some primitive)
    (hValue : encoder.valueOf value = .ok n) (hHolds : primitive.CanHold n) :
    encoder.numberAt? primitives bytes visit.function.source visit.base field = some n.toInt := by
  obtain ⟨layout, hLayout, m, hm, hScalarShown⟩ := hShown
  cases hValue.symm.trans hm
  exact h.numberAt?_of_shown hScalar hLayout hScalarShown rfl hHolds

/-- The number of the source value is read in a member that carries it. -/
theorem numberAt?_of_carries (h : Deployed declarations request naming encoder primitives)
    (hFunction : visit.function ∈ encoder.program.encodeFunctions)
    (hShown : ∀ step ∈ visit.function.steps, encoder.StepShown bytes visit step)
    {field : String} {n : Int64} (hCarries : encoder.Carries primitives visit field)
    (hValue : integerOf (fieldOf visit.input field) field = .ok n) :
    encoder.numberAt? primitives bytes visit.function.source visit.base field = some n.toInt := by
  obtain ⟨⟨primitive, hScalar, hHolds⟩, hConstant⟩ := hCarries
  rcases h.exists_scalar_step hFunction hScalar with hStep | ⟨value, hStep⟩
  · obtain ⟨layout, hLayout, hScalarShown⟩ := hShown _ hStep
    exact h.numberAt?_of_shown hScalar hLayout hScalarShown hValue (hHolds n hValue)
  · exact h.numberAt?_of_constant (hShown _ hStep) hScalar ((hConstant value hStep).trans hValue)
      (hHolds n hValue)

/-- The descriptor of an array that is not degraded has the length of the array. -/
theorem lengths_of_shown (h : Deployed declarations request naming encoder primitives)
    (hFunction : visit.function ∈ encoder.program.encodeFunctions)
    (hShown : ∀ step ∈ visit.function.steps, encoder.StepShown bytes visit step)
    {field lengthField : String} {element : Representation} {copy : Copy}
    (hStep : .varLen field lengthField element copy ∈ visit.function.steps)
    (hComplete : ¬ encoder.Degrades bytes visit (.varLen field lengthField element copy)) :
    ∃ layout offset length count, encoder.fieldLayout visit.function.source field = .ok layout ∧
      descriptorAt? bytes (visit.base + layout.offset) = some (offset, length) ∧
      lengthOf visit.input lengthField = .ok count ∧ length = count * layout.elementSize ∧
      (encoder.Carries primitives visit lengthField →
        ∃ number : Int, encoder.numberAt? primitives bytes visit.function.source visit.base
            lengthField = some number ∧ number * layout.elementSize = length) := by
  obtain ⟨layout, hLayout, count, hCount, hArray⟩ := hShown _ hStep
  have hDescriptor : ∃ offset, descriptorAt? bytes (visit.base + layout.offset) =
      some (offset, count * layout.elementSize) := by
    rcases hArray with hZero | ⟨start, hStart, _⟩
    · have hNone : count * layout.elementSize = 0 := by
        by_contra hSome
        exact hComplete ⟨layout, count, hLayout, hCount, by omega, hZero⟩
      exact ⟨0, by rw [hZero, hNone]⟩
    · exact ⟨start, hStart⟩
  obtain ⟨offset, hDescriptor⟩ := hDescriptor
  refine ⟨layout, offset, _, count, hLayout, hDescriptor, hCount, rfl, fun hCarries => ?_⟩
  obtain ⟨n, hNumber, hLength⟩ := bind_eq_ok.1 hCount
  refine ⟨n.toInt, h.numberAt?_of_carries hFunction hShown hCarries hNumber, ?_⟩
  split at hLength
  · cases hLength
  · obtain rfl := pure_eq_ok.1 hLength
    rw [Nat.cast_mul, Int.toNat_of_nonneg (by omega)]

/-- No array is degraded in an allocation that has the encoded size. -/
theorem complete_of_encode (h : Deployed declarations request naming encoder primitives)
    (hLimit : encoder.maxAllocation ≤ payloadLimit) {root : String} {value : Value}
    (hEncode : encoder.encode root value = .ok bytes) {start : Visit}
    (hStarts : encoder.Starts root value start) : encoder.Complete bytes start := by
  obtain ⟨size, stop, hSize, hAllowed, hInto⟩ := Encoder.encode_eq_ok hEncode
  have hLimits : payloadLimit < sizeLimit := by decide
  have hLength : (Array.replicate size (0 : UInt8)).size = size := Array.size_replicate
  obtain ⟨other, _, found, hOther, _, hFound, _, _, _, hIff, _, hFits⟩ :=
    h.stop_of_encodeInto (by omega) hInto
  cases hSize.symm.trans hFound
  cases hStarts.unique hOther
  exact hIff.1 (hFits (by omega))

/-- What is shown fits together if no array is degraded. -/
theorem consistent_of_shown (h : Deployed declarations request naming encoder primitives)
    (hFunction : visit.function ∈ encoder.program.encodeFunctions)
    (hShown : ∀ step ∈ visit.function.steps, encoder.StepShown bytes visit step)
    (hComplete : ∀ step ∈ visit.function.steps, ¬ encoder.Degrades bytes visit step) :
    encoder.Consistent primitives bytes visit where
  lengths hStep := h.lengths_of_shown hFunction hShown hStep (hComplete _ hStep)
  selectors hStep := by
    obtain ⟨layout, hLayout, selector, arm, variant, hSelector, hArm, hVariant, hCopy⟩ :=
      hShown _ hStep
    refine ⟨arm, Encoder.mem_of_selectArm hArm, selector, Encoder.valueOf_of_selectArm hArm,
      hSelector, ⟨layout, variant, hLayout, hVariant, hCopy, fun next hNext => ?_⟩,
      fun hCarries => h.numberAt?_of_carries hFunction hShown hCarries hSelector⟩
    exact ⟨_, hStep, .union hLayout hSelector hArm hVariant hNext⟩
  constants hStep hScalar hValue hHolds :=
    h.numberAt?_of_constant (hShown _ hStep) hScalar hValue hHolds

end Deployed

/-- **Encodings are consistent with themselves**: take an encoder of a compiled program that
encodes variable-length arrays as such, with any table of primitive types that lays it out.
If it encodes a value, with a limit on allocations that descriptors allow, what a receiver
reads fits together in every structure that it finds in the encoding. -/
theorem received_numbers_consistent {declarations : Declarations} {request : Request}
    {index : DirectiveIndex} {settings : Settings} {program : Program} {encoder : Encoder}
    {primitives : Primitives}
    (hCompile : compile declarations index settings request = .ok program)
    (hFields : program.DistinctFields declarations) (hDecided : program.Decided declarations index)
    (hEncoder : encoder.IsFor program primitives) (hLimit : encoder.maxAllocation ≤ payloadLimit)
    {root : String} {value : Value} {bytes : Array UInt8}
    (hEncode : encoder.encode root value = .ok bytes) :
    ∃ start, encoder.Starts root value start ∧
      ∀ visit, encoder.Visits bytes start visit → encoder.Consistent primitives bytes visit := by
  obtain ⟨naming, h⟩ := deployed_of_decided hCompile hFields hDecided hEncoder
  obtain ⟨start, hStarts, hFunction, hShows⟩ := h.shows_of_encode hLimit hEncode
  have hComplete := h.complete_of_encode hLimit hEncode hStarts
  exact ⟨start, hStarts, fun visit hVisit => h.consistent_of_shown (hVisit.mem hFunction)
    (hShows visit hVisit) (hComplete visit hVisit)⟩

namespace Sample

/-- The encoding of the sample: two items behind a body of the second kind. -/
def encoded : Array UInt8 := #[1, 1, 2, 0, 0, 2, 12, 0, 4, 0, 7, 7, 3, 0, 4, 0]

/-- The run of the sample's root. -/
def visitBatch : Visit := ⟨convertBatch, some value, 0⟩

/-- Where no constant is written to a scalar, a number that its place can hold is carried. -/
theorem carries_of_no_constant {encoder : Encoder} {visit : Visit} {field : String}
    {primitive : Primitive} {n : Int64}
    (hNone : visit.function.steps.all (fun step => match step with
      | .fixedScalar .. => false
      | _ => true) = true)
    (hScalar : encoder.program.scalar? Primitives.standard visit.function.source field =
      some primitive)
    (hValue : integerOf (fieldOf visit.input field) field = .ok n)
    (hHolds : primitive.CanHold n) : encoder.Carries Primitives.standard visit field := by
  refine ⟨⟨primitive, hScalar, fun m hm => ?_⟩, fun value hStep => ?_⟩
  · cases hValue.symm.trans hm
    exact hHolds
  · cases List.all_eq_true.1 hNone _ hStep

theorem batch_consistent :
    encoder.encode "chreTestBatch" value = .ok encoded ∧
      encoder.Starts "chreTestBatch" value visitBatch ∧
      encoder.Carries Primitives.standard visitBatch "count" ∧
      encoder.Carries Primitives.standard visitBatch "kind" ∧
      encoder.Consistent Primitives.standard encoded visitBatch := by
  let point : EntryPoint := (program.entryPoint? "chreTestBatch").getD default
  have hFacts : (encoder.encode "chreTestBatch" value).toOption = some encoded ∧
      program.entryPoint? "chreTestBatch" = some point ∧
      program.encodeFunction? point.source = some convertBatch ∧
      convertBatch.steps.all (fun step => match step with
        | .fixedScalar .. => false
        | _ => true) = true ∧
      ∀ field ∈ ["count", "kind"],
        program.scalar? Primitives.standard convertBatch.source field = some ⟨1, .unsigned⟩ := by
    decide +kernel
  obtain ⟨hBytes, hPoint, hConvert, hNone, hByte⟩ := hFacts
  have hEncode : encoder.encode "chreTestBatch" value = .ok encoded := eq_ok_of_toOption hBytes
  have hStarts : encoder.Starts "chreTestBatch" value visitBatch :=
    ⟨point, hPoint, Encoder.encodeFunction_eq_ok.2 hConvert, rfl, rfl⟩
  obtain ⟨start, hOther, hAll⟩ := received_numbers_consistent compiles distinctFields
    unmixed.decided isFor (Nat.le_refl payloadLimit) hEncode
  obtain rfl : visitBatch = start := hStarts.unique hOther
  exact ⟨hEncode, hStarts,
    carries_of_no_constant hNone (hByte "count" (by simp)) rfl ⟨by decide, by decide⟩,
    carries_of_no_constant hNone (hByte "kind" (by simp)) rfl ⟨by decide, by decide⟩,
    hAll visitBatch .refl⟩

/-- The encoder of a program over the standard types, without constants. -/
def standardEncoder (program : Program) : Encoder :=
  ⟨program, (Layouts.ofProgram Primitives.standard program).toOption.getD Table.empty, Table.empty,
    payloadLimit⟩

/-- The count is five, whatever the source value says. -/
def pinnedIndex : DirectiveIndex :=
  ⟨[ ⟨"chreTestBatch", "count", .fixedValue (.int 5)⟩
   , ⟨"chreTestBatch", "data", .varLenArray "count"⟩ ]⟩

def pinnedProgram : Program := (compileWithin 20 mixed pinnedIndex {} request).getD default

/-- A batch of two numbers. -/
def pair : Value := .record [("count", .int 2), ("data", .array [.int 3, .int 4])]

/-- A batch with two members of one name, so that the first is written in the place of the
second, which is too small. -/
def doubled : Declarations :=
  Table.ofList
    [ ("chreTestBatch", ⟨.struct,
        [ ⟨"count", ⟨"uint8_t", .plain⟩⟩, ⟨"items", ⟨"const struct chreTestItem", .pointer⟩⟩
        , ⟨"reserved", ⟨"uint8_t", .array 4⟩⟩, ⟨"reserved", ⟨"uint8_t", .plain⟩⟩ ]⟩)
    , ("chreTestItem", ⟨.struct,
        [⟨"kind", ⟨"uint8_t", .plain⟩⟩, ⟨"body", ⟨"union chreTestVariant", .plain⟩⟩]⟩)
    , ("chreTestVariant", ⟨.union,
        [⟨"code", ⟨"uint8_t", .plain⟩⟩, ⟨"flag", ⟨"uint8_t", .plain⟩⟩]⟩) ]

def doubledIndex : DirectiveIndex :=
  ⟨[ ⟨"chreTestBatch", "items", .varLenArray "count"⟩
   , ⟨"chreTestItem", "body", .unionVariant "kind" [(.int 0, "code"), (.int 1, "flag")]⟩ ]⟩

def doubledProgram : Program := (compileWithin 20 doubled doubledIndex {} request).getD default

/-- An item of the second kind. -/
def flagged (flag : Int64) : Value :=
  .record [("kind", .int 1), ("body", .record [("flag", .int flag)])]

def flags : Value := .record [("count", .int 2), ("items", .array [flagged 7, flagged 8])]

/-- The number in a length field, which is a constant, does not go with the length in the
descriptor.  And if two members have one name, the number in a discriminator can be lost. -/
theorem stored_numbers_disagree :
    (compile mixed pinnedIndex {} request = .ok pinnedProgram ∧
      pinnedProgram.DistinctFields mixed ∧ pinnedProgram.Decided mixed pinnedIndex ∧
      (standardEncoder pinnedProgram).IsFor pinnedProgram Primitives.standard ∧
      ∃ bytes convert copy layout,
        (standardEncoder pinnedProgram).encode "chreTestBatch" pair = .ok bytes ∧
        (standardEncoder pinnedProgram).Starts "chreTestBatch" pair ⟨convert, some pair, 0⟩ ∧
        .varLen "data" "count" (.primitive "uint16_t") copy ∈ convert.steps ∧
        pinnedProgram.scalar? Primitives.standard "chreTestBatch" "count" = some ⟨1, .unsigned⟩ ∧
        integerOf (fieldOf (some pair) "count") "count" = .ok 2 ∧
        Primitive.CanHold ⟨1, .unsigned⟩ 2 ∧
        (standardEncoder pinnedProgram).numberAt? Primitives.standard bytes "chreTestBatch" 0
          "count" = some 5 ∧
        (standardEncoder pinnedProgram).fieldLayout "chreTestBatch" "data" = .ok layout ∧
        descriptorAt? bytes layout.offset = some (5, 4) ∧ 5 * layout.elementSize ≠ 4) ∧
    compile doubled doubledIndex {} request = .ok doubledProgram ∧
      doubledProgram.Decided doubled doubledIndex ∧
      (standardEncoder doubledProgram).IsFor doubledProgram Primitives.standard ∧
      ∃ bytes start convert record arms arm,
        (standardEncoder doubledProgram).encode "chreTestBatch" flags = .ok bytes ∧
        (standardEncoder doubledProgram).Starts "chreTestBatch" flags start ∧
        (standardEncoder doubledProgram).Visits bytes start ⟨convert, some (flagged 7), 10⟩ ∧
        .union "body" record "kind" arms ∈ convert.steps ∧
        (standardEncoder doubledProgram).Carries Primitives.standard
          ⟨convert, some (flagged 7), 10⟩ "kind" ∧
        (standardEncoder doubledProgram).selectArm "body" 1 arms = .ok arm ∧
        arm.member = "flag" ∧
        integerOf (fieldOf (some (flagged 7)) "kind") "kind" = .ok 1 ∧
        (standardEncoder doubledProgram).numberAt? Primitives.standard bytes convert.source 10
          "kind" = some 0 := by
  refine ⟨?_, ?_⟩
  · let convert : EncodeFunction := (pinnedProgram.encodeFunction? "chreTestBatch").getD default
    let point : EntryPoint := (pinnedProgram.entryPoint? "chreTestBatch").getD default
    have hFacts : (compileWithin 20 mixed pinnedIndex {} request).isSome ∧
        pinnedProgram.DistinctFields mixed ∧ pinnedProgram.Decided mixed pinnedIndex ∧
        (Layouts.ofProgram Primitives.standard pinnedProgram).toOption.isSome ∧
        ((standardEncoder pinnedProgram).encode "chreTestBatch" pair).toOption =
          some #[5, 5, 0, 4, 0, 3, 0, 4, 0] ∧
        pinnedProgram.entryPoint? "chreTestBatch" = some point ∧
        pinnedProgram.encodeFunction? point.source = some convert ∧
        .varLen "data" "count" (.primitive "uint16_t") .scalar ∈ convert.steps ∧
        pinnedProgram.scalar? Primitives.standard "chreTestBatch" "count" = some ⟨1, .unsigned⟩ ∧
        (standardEncoder pinnedProgram).numberAt? Primitives.standard
          #[5, 5, 0, 4, 0, 3, 0, 4, 0] "chreTestBatch" 0 "count" = some 5 ∧
        ((standardEncoder pinnedProgram).fieldLayout "chreTestBatch" "data").toOption =
          some ⟨1, 4, 2, 1, some .unsigned⟩ := by
      unfold Program.DistinctFields Program.Decided Member.Decided
      decide +kernel
    obtain ⟨hCompile, hFields, hDecided, hLayouts, hEncode, hPoint, hConvert, hStep, hScalar,
      hNumber, hPlace⟩ := hFacts
    exact ⟨compile_getD hCompile, hFields, hDecided,
      Encoder.isFor_of_layouts (eq_ok_getD hLayouts), _, convert, .scalar, _,
      eq_ok_of_toOption hEncode,
      ⟨point, hPoint, Encoder.encodeFunction_eq_ok.2 hConvert, rfl, rfl⟩, hStep, hScalar, rfl,
      ⟨by decide, by decide⟩, hNumber, eq_ok_of_toOption hPlace, by decide +kernel, by decide⟩
  · let convert : EncodeFunction := (doubledProgram.encodeFunction? "chreTestBatch").getD default
    let convertItem : EncodeFunction :=
      (doubledProgram.encodeFunction? "chreTestItem").getD default
    let point : EntryPoint := (doubledProgram.entryPoint? "chreTestBatch").getD default
    let item : RecordRef := ⟨"chreTestItem", "struct ChppTestItem", .struct⟩
    let variant : RecordRef := ⟨"chreTestVariant", "union ChppTestVariant", .union⟩
    let arms : List UnionArm := [⟨.int 0, "code", .scalar⟩, ⟨.int 1, "flag", .scalar⟩]
    have hFacts : (compileWithin 20 doubled doubledIndex {} request).isSome ∧
        doubledProgram.Decided doubled doubledIndex ∧
        (Layouts.ofProgram Primitives.standard doubledProgram).toOption.isSome ∧
        ((standardEncoder doubledProgram).encode "chreTestBatch" flags).toOption =
          some #[2, 10, 0, 4, 0, 0, 0, 0, 0, 0, 0, 0, 0, 8] ∧
        doubledProgram.entryPoint? "chreTestBatch" = some point ∧
        doubledProgram.encodeFunction? point.source = some convert ∧
        .varLen "items" "count" (.record item)
          (.record "chreTestItem" "chppTestConvertItemFromChre" false) ∈ convert.steps ∧
        ((standardEncoder doubledProgram).fieldLayout convert.source "items").toOption =
          some ⟨1, 4, 2, 1, none⟩ ∧
        doubledProgram.encodeFunction? "chreTestItem" = some convertItem ∧
        .union "body" variant "kind" arms ∈ convertItem.steps ∧
        convertItem.steps.all (fun step => match step with
          | .fixedScalar .. => false
          | _ => true) = true ∧
        doubledProgram.scalar? Primitives.standard convertItem.source "kind" =
          some ⟨1, .unsigned⟩ ∧
        (standardEncoder doubledProgram).numberAt? Primitives.standard
          #[2, 10, 0, 4, 0, 0, 0, 0, 0, 0, 0, 0, 0, 8] convertItem.source 10 "kind" = some 0 := by
      unfold Program.Decided Member.Decided
      decide +kernel
    obtain ⟨hCompile, hDecided, hLayouts, hEncode, hPoint, hConvert, hStep, hPlace, hConvertItem,
      hUnion, hNone, hScalar, hNumber⟩ := hFacts
    refine ⟨compile_getD hCompile, hDecided, Encoder.isFor_of_layouts (eq_ok_getD hLayouts), _,
      ⟨convert, some flags, 0⟩, convertItem, variant, arms, ⟨.int 1, "flag", .scalar⟩,
      eq_ok_of_toOption hEncode,
      ⟨point, hPoint, Encoder.encodeFunction_eq_ok.2 hConvert, rfl, rfl⟩,
      .single ⟨_, hStep, ?_⟩, hUnion,
      carries_of_no_constant hNone hScalar rfl ⟨by decide, by decide⟩, rfl, rfl, rfl, hNumber⟩
    exact .varLen (eq_ok_of_toOption hPlace) (rfl : lengthOf (some flags) "count" = .ok 2)
      (by decide +kernel : descriptorAt? #[2, 10, 0, 4, 0, 0, 0, 0, 0, 0, 0, 0, 0, 8] (0 + 1) =
        some (10, 4))
      (by decide) (by decide : 0 < 2)
      (.record (Encoder.encodeFunction_eq_ok.2 hConvertItem))

end Sample

end WireSchema
