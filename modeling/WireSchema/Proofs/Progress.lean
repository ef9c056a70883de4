import WireSchema.Proofs.BlamelessRuns
import WireSchema.Proofs.ClosedProgram
import WireSchema.Proofs.SafeExecution

/-!
# Well-shaped values encode

Safety says that the encoder of a compiled program ends early only with an error that names
the source value or a constant.  A well-shaped value gives no reason for one, so encoding it
succeeds wherever the packed type has room, and allocating for it succeeds exactly if the
allocation is allowed.

The one case in which a compiled program asks for what cannot be written is a constant on a
plain member of structure type.  Such a member compiles, and its constant has no place as a
number; `Program.FitsConstants` excludes it.

## Main results

* `Deployed.constantsFit`: constants of other members stand in places for numbers.
* `Deployed.exists_encodeInto`, `Deployed.exists_encodedSize`: the two entry points that go
  over the value.
* `well_shaped_values_encode`: all three.
-/

namespace WireSchema

/-- A constant on the member can be written: the member is an array, which is filled, or a
primitive type represents it. -/
def Member.FitsConstant (member : Member) : Prop :=
  member.fixedValue? ≠ none →
    member.arrayLength? ≠ none ∨ member.typeOverride? ≠ none ∨ member.nested? = none

/-- The constants on the members of the program can be written. -/
def Program.FitsConstants (program : Program) (declarations : Declarations)
    (index : DirectiveIndex) : Prop :=
  ∀ type ∈ program.types, ∀ declaration ∈ declarations.get? type.source,
    ∀ member ∈ declaration.members index type.source, member.FitsConstant

namespace Naming

variable {naming : Naming} {owner : Outline} {member : Member}

/-- A constant that is written as a number is that of a plain member. -/
theorem constant_of_step {field : String} {value : Literal}
    (h : naming.step owner member = .ok (.fixedScalar field value)) :
    member.name = field ∧ member.arrayLength? = none ∧ member.fixedValue? ≠ none := by
  rcases step_eq_ok h with
    ⟨_, _, _, hEq⟩ | ⟨constant, hDecisive, hEq⟩ | ⟨_, _, _, hVarLen⟩ | ⟨_, _, _, _, hUnion⟩
  · cases hEq
  · unfold fixedStep at hEq
    split at hEq
    · cases hEq
    · rename_i hPlain
      cases hEq
      refine ⟨rfl, by simpa using hPlain, fun hNone => ?_⟩
      have hMem := List.mem_of_find?_eq_some hDecisive
      cases List.findSome?_eq_none_iff.1 hNone _ hMem
  · obtain ⟨_, _, _, hEq, _⟩ := varLenStep_eq_ok hVarLen
    cases hEq
  · obtain ⟨_, _, _, _, _, _, _, _, hEq⟩ := unionStep_eq_ok hUnion
    cases hEq

/-- A primitive type represents a plain member that can take a constant. -/
theorem representation_of_fitsConstant (h : member.FitsConstant)
    (hConstant : member.fixedValue? ≠ none) (hPlain : member.arrayLength? = none)
    {representation : Representation} (hMade : naming.representation member = .ok representation) :
    ∃ spec, representation = .primitive spec := by
  rcases representation_eq_ok hMade with
    ⟨spec, _, hEq⟩ | ⟨nested, ref, hOverride, hNested, _, _⟩ | ⟨_, _, hEq⟩
  · exact ⟨spec, hEq⟩
  · rcases h hConstant with hArray | hOther | hNone
    · exact absurd hPlain hArray
    · exact absurd hOverride hOther
    · rw [hNested] at hNone
      cases hNone
  · exact ⟨_, hEq⟩

end Naming

/-- The place of a member that a primitive type represents is one for a number. -/
theorem Layouts.scalar_of_fieldAt {layouts : Layouts} {primitives : Primitives} {owner : String}
    {member : PackedMember} {spec : String} {offset : Nat} {field : FieldLayout}
    (hPlacement : member.placement = .value (.primitive spec) ∨
      member.placement = .descriptor (.primitive spec))
    (h : layouts.fieldAt primitives owner member offset = .ok field) : field.scalar ≠ none := by
  have hElement : ∀ {element : Nat × Option ScalarClass},
      layouts.elementOf primitives owner member.name (.primitive spec) = .ok element →
      element.2 ≠ none := by
    intro element hFound
    unfold elementOf at hFound
    dsimp only at hFound
    split at hFound
    · cases hFound
      exact Option.some_ne_none _
    · cases hFound
  rcases hPlacement with hValue | hDescriptor
  · obtain ⟨element, hFound, rfl⟩ := (fieldAt_value hValue).1 h
    exact hElement hFound
  · obtain ⟨element, hFound, rfl⟩ := (fieldAt_descriptor hDescriptor).1 h
    exact hElement hFound

namespace Deployed

variable {declarations : Declarations} {request : Request} {naming : Naming}
  {encoder : Encoder} {primitives : Primitives}

/-- **Constants in compiled programs** stand in places for numbers. -/
theorem constantsFit (h : Deployed declarations request naming encoder primitives)
    (hConstants : encoder.program.FitsConstants declarations naming.index) :
    encoder.ConstantsFit := by
  intro function hFunction field value layout hStep hLayout
  obtain ⟨entry, hStruct, hMade⟩ := exists_left_of_mem h.compiled.encodeFunctions hFunction
  have hOrder := (List.mem_filter.1 hStruct).1
  obtain ⟨hSource, _, hSteps⟩ := Naming.encodeFunction_eq_ok hMade
  obtain ⟨member, hMember, hLowered⟩ := exists_left_of_mem hSteps hStep
  obtain ⟨rfl, hPlain, hConstant⟩ := Naming.constant_of_step hLowered
  -- The member is one of a declaration, and has a place in the packed type.
  obtain ⟨type, hType, hPacks⟩ := h.compiled.exists_type hOrder
  obtain ⟨hTypeSource, _, hPacked⟩ := Naming.packedType_eq_ok hPacks
  obtain ⟨declaration, hGet, hMembers⟩ := h.compiled.declared_of_packedType hOrder hPacks
  have hFits := hConstants type hType declaration hGet member (hMembers ▸ hMember)
  obtain ⟨packed, hPackedMember, hPack⟩ := exists_right_of_mem hPacked hMember
  obtain ⟨hName, _, representation, hRepresentation, hPlacement⟩ := Naming.packedMember_eq_ok hPack
  obtain ⟨spec, rfl⟩ :=
    Naming.representation_of_fitsConstant hFits hConstant hPlain hRepresentation
  obtain ⟨size, fields, _, hFrom, hPlaces⟩ := h.compiled.exists_layout h.layouts h.fields hType
  obtain ⟨place, hPlace, offset, hAt⟩ := Layouts.exists_place_of_mem hFrom hPackedMember
  have hFound := hPlaces _ hPlace
  rw [hTypeSource, ← hSource, hName, hLayout] at hFound
  cases hFound
  have hPrimitive : packed.placement = .value (.primitive spec) ∨
      packed.placement = .descriptor (.primitive spec) := by
    rw [hPlacement]
    split
    · exact .inr rfl
    · exact .inl rfl
  exact Layouts.scalar_of_fieldAt hPrimitive hAt

/-- Encoding a root can be prepared for every buffer that has room for its packed type. -/
theorem exists_prepare (h : Deployed declarations request naming encoder primitives)
    {root : String} (hRoot : root ∈ request.roots) :
    ∃ point needed function, encoder.staticSize root = .ok needed ∧
      ∀ size, needed ≤ size → encoder.prepare root size = .ok (point, needed, function) := by
  obtain ⟨point, hPoint⟩ := Option.isSome_iff_exists.1 (h.compiled.entryPoint?_isSome hRoot)
  have hName := List.find?_some hPoint
  obtain rfl := eq_of_beq hName
  obtain ⟨function, hFunction, hSource, _, _, hReady⟩ := h.ready_of_entryPoint hPoint
  obtain ⟨needed, hNeeded⟩ := hReady.exists_staticSize
  rw [hSource] at hNeeded
  refine ⟨point, needed, function, hNeeded, fun size hRoom => ?_⟩
  refine bind_eq_ok.2 ⟨point, Encoder.entryPoint_eq_ok.2 hPoint, bind_eq_ok.2 ⟨needed, hNeeded, ?_⟩⟩
  rw [if_neg (by omega)]
  exact bind_eq_ok.2 ⟨function, hFunction, rfl⟩

section Shaped

variable {root : String} {value : Value}

/-- **Encoding a well-shaped value** into a buffer with room for the packed type succeeds. -/
theorem exists_encodeInto (h : Deployed declarations request naming encoder primitives)
    (hWritable : primitives.Writable) (hConstants : encoder.ConstantsFit)
    (hDefined : encoder.Defined) (hRoot : root ∈ request.roots)
    (hShaped : encoder.WellShaped root (some value)) {needed : Nat}
    (hNeeded : encoder.staticSize root = .ok needed) {buffer : Array UInt8}
    (hRoom : needed ≤ buffer.size) :
    ∃ stop after, encoder.encodeInto root value buffer = (.ok stop, after) := by
  obtain ⟨point, found, function, hFound, hPrepare⟩ := h.exists_prepare hRoot
  rw [hNeeded] at hFound
  cases hFound
  have hStart := hPrepare buffer.size hRoom
  rcases encoder.encodeInto_cases root value buffer with
    ⟨fault, hError, _⟩ | ⟨other, size, called, hOther, ⟨fault, out, hRun, _⟩ | ⟨out, _, hEq⟩⟩
  · rw [hStart] at hError
    cases hError
  · have hPrepared := h.prepared hOther
    have hBlame := ((hPrepared.run_safe value).of_error hRun).1.fromValue hWritable.positive
    have hCalled : encoder.encodeFunction called.source = .ok called :=
      hPrepared.source ▸ hPrepared.encodes
    refine absurd hBlame (Encoder.blameless_run hPrepared.ready hWritable hConstants hDefined
      hCalled ?_ _ 0 _ fault out hRun)
    rw [hPrepared.source_eq]
    exact hShaped
  · exact ⟨_, _, hEq⟩

/-- **Sizing a well-shaped value** succeeds, and gives at least the size of the packed type, as
far as that is within the limit. -/
theorem exists_encodedSize (h : Deployed declarations request naming encoder primitives)
    (hConstants : encoder.ConstantsFit) (hRoot : root ∈ request.roots)
    (hShaped : encoder.WellShaped root (some value)) {needed : Nat}
    (hNeeded : encoder.staticSize root = .ok needed) :
    ∃ size, encoder.encodedSize root value = .ok size ∧ min needed sizeLimit ≤ size := by
  obtain ⟨point, found, function, hFound, hPrepare⟩ := h.exists_prepare hRoot
  have hPrepared := h.prepared (hPrepare found (Nat.le_refl found))
  have hSource := hPrepared.source_eq
  cases hVarLen : function.varLen with
  | false =>
      refine ⟨needed, ?_, Nat.min_le_left _ _⟩
      have hStatic := hPrepared.static
      rw [hSource, hNeeded] at hStatic
      rw [hPrepared.encodedSize_of_fixed hVarLen, hStatic]
  | true =>
      have hDynamic := hPrepared.encodedSize_of_varLen hVarLen value
      cases hSize : encoder.encodedSize root value with
      | ok size =>
          rw [hDynamic, hSource] at hSize
          exact ⟨size, rfl, Encoder.min_le_dynamicSize hSize hNeeded⟩
      | error fault =>
          have hCalled : encoder.encodeFunction function.source = .ok function :=
            hPrepared.source ▸ hPrepared.encodes
          rcases h.encodedSize_error hSize with hUnknown | hValue
          · rw [Encoder.entryPoint_eq_ok.2 hPrepared.entry] at hUnknown
            cases hUnknown
          · rw [hDynamic] at hSize
            refine absurd hValue (Encoder.blameless_dynamicSize hPrepared.ready hConstants hCalled
              hVarLen ?_ hSize)
            rw [hPrepared.source_eq]
            exact hShaped

end Shaped

end Deployed

/-- **Progress**: for an encoder of a compiled program, with primitive types that can be
written, no mixed directives, and constants only where they can be written and all of them
defined, a well-shaped value of a root always encodes.

Encoding it into a buffer succeeds for every buffer with room for the packed type.  It has an
encoded size, and encoding it into an allocation of that size succeeds exactly if the
allocation is allowed; if it is not, that is the error.  Encoded sizes stop growing at
`sizeLimit`, so the size of the packed type has to be within it, unless allocations end below
it. -/
theorem well_shaped_values_encode {declarations : Declarations} {request : Request}
    {index : DirectiveIndex} {settings : Settings} {program : Program} {encoder : Encoder}
    {primitives : Primitives}
    (hCompile : compile declarations index settings request = .ok program)
    (hFields : program.DistinctFields declarations) (hUnmixed : program.Unmixed declarations index)
    (hConstants : program.FitsConstants declarations index) (hWritable : primitives.Writable)
    (hEncoder : encoder.IsFor program primitives) (hDefined : encoder.Defined) {root : String}
    (hRoot : root ∈ request.roots) {value : Value}
    (hShaped : encoder.WellShaped root (some value)) :
    ∃ needed size, encoder.staticSize root = .ok needed ∧
      encoder.encodedSize root value = .ok size ∧
      (∀ buffer : Array UInt8, needed ≤ buffer.size →
        ∃ stop after, encoder.encodeInto root value buffer = (.ok stop, after)) ∧
      (needed ≤ sizeLimit ∨ encoder.maxAllocation < sizeLimit →
        ((∃ bytes, encoder.encode root value = .ok bytes) ↔ size ≤ encoder.maxAllocation)) ∧
      (encoder.maxAllocation < size →
        encoder.encode root value = .error (.error (.allocationFailed size))) := by
  obtain ⟨rfl, hLayouts⟩ := hEncoder.layouts
  obtain ⟨naming, rfl, hParts⟩ := compiled_of_compile hCompile
  have h : Deployed declarations request naming encoder primitives :=
    ⟨hParts, hLayouts, hFields, hUnmixed.decided⟩
  have hFit := h.constantsFit hConstants
  obtain ⟨_, needed, _, hNeeded, _⟩ := h.exists_prepare hRoot
  obtain ⟨size, hSize, hLe⟩ := h.exists_encodedSize hFit hRoot hShaped hNeeded
  have hInto : ∀ buffer : Array UInt8, needed ≤ buffer.size →
      ∃ stop after, encoder.encodeInto root value buffer = (.ok stop, after) :=
    fun _ hRoom => h.exists_encodeInto hWritable hFit hDefined hRoot hShaped hNeeded hRoom
  refine ⟨needed, size, hNeeded, hSize, hInto, fun hLimit => ⟨fun ⟨bytes, hBytes⟩ => ?_, ?_⟩, ?_⟩
  · obtain ⟨found, _, hFound, hAllowed, _⟩ := Encoder.encode_eq_ok hBytes
    rw [hSize] at hFound
    cases hFound
    exact hAllowed
  · intro hAllowed
    obtain ⟨stop, after, hEq⟩ := hInto (Array.replicate size 0) (by
      rw [Array.size_replicate]
      omega)
    refine ⟨after, ?_⟩
    rw [Encoder.encode_of_encodedSize hSize, if_neg (by omega), hEq]
  · intro hBeyond
    rw [Encoder.encode_of_encodedSize hSize, if_pos hBeyond]

namespace Sample

theorem fitsConstants : program.FitsConstants declarations index := by
  unfold Program.FitsConstants Member.FitsConstant
  decide +kernel

theorem writable : Primitives.standard.Writable := by
  intro name primitive hGet
  rcases Table.of_get?_insertAll hGet with hMem | hNone
  · exact (by decide : ∀ entry ∈ Primitives.standard.entries,
      if entry.2.scalar = .float then entry.2.size = 4 ∨ entry.2.size = 8
      else 0 < entry.2.size) _ hMem
  · cases hNone

theorem defined : encoder.Defined := by
  intro function hFunction step hStep literal hLiteral
  have hAll : ∀ function ∈ encoder.program.encodeFunctions, ∀ step ∈ function.steps,
      ∀ literal ∈ step.literals, (encoder.valueOf literal).toOption.isSome := by decide +kernel
  obtain ⟨n, hn⟩ := Option.isSome_iff_exists.1 (hAll function hFunction step hStep literal hLiteral)
  exact ⟨n, eq_ok_of_toOption hn⟩

/-- A batch of two items has the right shape, so it encodes. -/
theorem batch_encodes :
    encoder.WellShaped "chreTestBatch" (some value) ∧
      ∃ needed size, encoder.staticSize "chreTestBatch" = .ok needed ∧
        encoder.encodedSize "chreTestBatch" value = .ok size ∧
        (∀ buffer : Array UInt8, needed ≤ buffer.size →
          ∃ stop after, encoder.encodeInto "chreTestBatch" value buffer = (.ok stop, after)) ∧
        (needed ≤ sizeLimit ∨ encoder.maxAllocation < sizeLimit →
          ((∃ bytes, encoder.encode "chreTestBatch" value = .ok bytes) ↔
            size ≤ encoder.maxAllocation)) ∧
        (encoder.maxAllocation < size →
          encoder.encode "chreTestBatch" value = .error (.error (.allocationFailed size))) := by
  have hChecked : encoder.shapedWithin 2 "chreTestBatch" (some value) = true := by decide +kernel
  have hShaped := Encoder.wellShaped_of_shapedWithin hChecked
  exact ⟨hShaped, well_shaped_values_encode compiles distinctFields unmixed fitsConstants writable
    isFor defined (by decide) hShaped⟩

end Sample

end WireSchema
