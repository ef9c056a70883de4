import WireSchema.Proofs.PayloadArguments
import WireSchema.Proofs.RejectedNesting

/-!
# Where variable-length data is nested

Encoding a root runs the function of its entry point, and from there whatever copies call.
The functions that can be run this way nest variable-length data in plain members only.  What
they call for the elements of an array or inside a union takes no payload, and the unions
themselves have a fixed size.

The pass that would reject a union of variable length is the one for size functions.  It does
not see every structure, but it has seen every structure of variable length that can be run:
the roots are where it starts, and a plain member of variable length has a term, which
takes the search on to the type of the member.

## Main results

* `Compiled.exists_live`: what can be run belongs to a type that the search has come to.
* `Compiled.nestsPlainly`, `Compiled.movesPlainly`: what such a function nests and moves.
* `nested_payload_rejected`: this of what compiles, and what is rejected otherwise.
-/

namespace WireSchema

/-- Encoding a root can run the function: it is that of an entry point, or a copy in a function
that can be run calls it. -/
inductive Program.Executed (program : Program) : EncodeFunction → Prop
  | entry {point : EntryPoint} {function : EncodeFunction} :
      point ∈ program.entryPoints → program.encodeFunction? point.source = some function →
      Executed program function
  | call {caller callee : EncodeFunction} {step : Step} {copy : Copy} {source : String} :
      Executed program caller → step ∈ caller.steps → copy ∈ step.copies →
      copy.callee? = some source → program.encodeFunction? source = some callee →
      Executed program callee

/-- What the copy calls, if anything, is a function of the program that takes no payload. -/
def Program.CallsFixed (program : Program) (copy : Copy) : Prop :=
  ∀ source function, copy.call? = some (source, function) →
    ∃ callee, program.encodeFunction? source = some callee ∧ callee.function = function ∧
      callee.varLen = false

/-- The function nests variable-length data in plain members only. -/
structure Program.NestsPlainly (program : Program) (declarations : Declarations)
    (index : DirectiveIndex) (function : EncodeFunction) : Prop where
  elements_fixed : ∀ field lengthField element copy,
    .varLen field lengthField element copy ∈ function.steps → program.CallsFixed copy
  arrays_fixed : ∀ step ∈ function.steps, ∀ source name length,
    .recordArray source name length ∈ step.copies →
      program.CallsFixed (.recordArray source name length)
  arms_fixed : ∀ field record discriminator arms,
    .union field record discriminator arms ∈ function.steps →
      ∀ arm ∈ arms, program.CallsFixed arm.copy
  unions_fixed : ∀ field record discriminator arms,
    .union field record discriminator arms ∈ function.steps →
      ¬ declarations.IsVarLen index record.source
  /-- A copy that passes the payload on is that of a plain member. -/
  payload_plain : ∀ step ∈ function.steps, ∀ copy ∈ step.copies, copy.varLen = true →
    ∃ field source name, step = .assign field (.record source name true)

/-- A run of the function moves the cursor only to store an array, but not while its elements are
copied, and for a plain member that it passes the payload on to. -/
def Encoder.MovesPlainly (encoder : Encoder) (function : EncodeFunction) : Prop :=
  ∀ fuel, ∀ step ∈ function.steps,
    ((∀ field lengthField element copy, step ≠ .varLen field lengthField element copy) →
      (∀ field source name, step ≠ .assign field (.record source name true)) →
        ∀ input base, (encoder.step (encoder.run fuel) function.source input base step).Still) ∧
    ∀ field lengthField element copy, step = .varLen field lengthField element copy →
      ∀ count items start layout,
        (encoder.elementCopies (encoder.run fuel) field count copy items start layout).Still

namespace Compiled

variable {declarations : Declarations} {request : Request} {naming : Naming} {program : Program}
  {encoder : Encoder}

/-- A function that can be run belongs to a type that the search for size functions has come to,
if its length varies. -/
theorem exists_live (h : Compiled declarations request naming encoder.program)
    {function : EncodeFunction} (hExecuted : encoder.program.Executed function) :
    ∃ entry ∈ naming.graph.entriesOf (naming.graph.postOrder naming.graph.roots),
      naming.encodeFunction entry = .ok function ∧ Live encoder entry := by
  induction hExecuted with
  | entry hPoint hFunction =>
      obtain ⟨entry, hRoot, hMade, hStruct, hOrder⟩ := h.root_entry hPoint
      obtain ⟨same, hSame, hEncodes⟩ := h.exists_encode_function hOrder hStruct
      have hSource := (Naming.encodeFunction_eq_ok hEncodes).1.trans
        (Naming.entryPoint_eq_ok hMade).1.symm
      obtain rfl := Option.some.inj
        ((h.encodeFunction?_eq_some.2 ⟨hSame, hSource⟩).symm.trans hFunction)
      exact ⟨entry, hOrder, hEncodes, h.sizeFunction?_of_root hRoot⟩
  | @call caller callee step copy source _ hStep hCopy hSource hFunction ih =>
      obtain ⟨entry, hEntry, hMade, hLive⟩ := ih
      obtain ⟨member, hMember, hLowered⟩ :=
        exists_left_of_mem (Naming.encodeFunction_eq_ok hMade).2.2 hStep
      obtain ⟨lead, tail, hOrder⟩ := List.append_of_mem hEntry
      obtain ⟨nested, hLead, hName, hStruct, _, hNestedLive⟩ :=
        h.callee_of_step hOrder hLive hMember hLowered hCopy hSource
      have hNested : nested ∈ naming.graph.entriesOf
          (naming.graph.postOrder naming.graph.roots) := by
        rw [hOrder]
        exact List.mem_append_left _ hLead
      obtain ⟨same, hSame, hEncodes⟩ := h.exists_encode_function hNested hStruct
      have hCalled := (Naming.encodeFunction_eq_ok hEncodes).1.trans hName
      obtain rfl := Option.some.inj
        ((h.encodeFunction?_eq_some.2 ⟨hSame, hCalled⟩).symm.trans hFunction)
      exact ⟨nested, hNested, hEncodes, hNestedLive⟩

/-- The function is one of the program. -/
theorem mem_of_executed (h : Compiled declarations request naming program)
    {function : EncodeFunction} (hExecuted : program.Executed function) :
    function ∈ program.encodeFunctions := by
  cases hExecuted with
  | entry _ hFunction => exact (h.encodeFunction?_eq_some.1 hFunction).1
  | call _ _ _ _ hFunction => exact (h.encodeFunction?_eq_some.1 hFunction).1

/-- The unions of a function that can be run have a fixed size, and so has what their arms
copy. -/
theorem union_fixed_of_executed (h : Compiled declarations request naming encoder.program)
    {function : EncodeFunction} (hExecuted : encoder.program.Executed function)
    {field discriminator : String} {record : RecordRef} {arms : List UnionArm}
    (hStep : .union field record discriminator arms ∈ function.steps) :
    ¬ declarations.IsVarLen naming.index record.source ∧ ∀ arm ∈ arms, arm.copy.varLen = false := by
  obtain ⟨entry, hOrder, hMade, hLive⟩ := h.exists_live hExecuted
  have hEntry := TypeGraph.entriesOf_subset hOrder
  obtain ⟨member, hMember, hLowered⟩ :=
    exists_left_of_mem (Naming.encodeFunction_eq_ok hMade).2.2 hStep
  obtain ⟨named, mapping, hOverride, hUnion⟩ := Naming.union_of_step hLowered
  obtain ⟨union, _, _, hNested, hKind, _, hRecord, hArms, hEq⟩ := Naming.unionStep_eq_ok hUnion
  cases hEq
  -- The pass for size functions has been at this member, and has not rejected it.
  obtain ⟨parts, hParts, _⟩ := h.exists_parts hEntry hLive
  obtain ⟨part, _, hPart⟩ := exists_right_of_mem hParts hMember
  have hFixed := union_fixed hPart hOverride hNested hKind
  obtain ⟨hMem, _⟩ := TypeGraph.nested?_eq_some hNested
  refine ⟨fun hVarLen => ?_, fun arm hArm => ?_⟩
  · rw [(Naming.recordRef_eq_ok hRecord).1, ← h.sound.varLen_iff_isVarLen hMem, hFixed] at hVarLen
    cases hVarLen
  · obtain ⟨pair, _, hArmMade⟩ := exists_left_of_mem hArms hArm
    exact h.arm_fixed hMem hFixed hArmMade

theorem callsFixed (h : Compiled declarations request naming program)
    {function : EncodeFunction} (hFunction : function ∈ program.encodeFunctions)
    {step : Step} (hStep : step ∈ function.steps) {copy : Copy} (hCopy : copy ∈ step.copies)
    (hFixed : copy.varLen = false) : program.CallsFixed copy := by
  intro source name hCall
  obtain ⟨callee, hCallee, hSource, hName, hFlag⟩ := h.call_target hFunction hStep hCopy hCall
  exact ⟨callee, h.encodeFunction?_eq_some.2 ⟨hCallee, hSource⟩, hName, hFlag.trans hFixed⟩

/-- **Plain nesting**: a function that can be run nests variable-length data in plain members
only. -/
theorem nestsPlainly (h : Compiled declarations request naming encoder.program)
    {function : EncodeFunction} (hExecuted : encoder.program.Executed function) :
    encoder.program.NestsPlainly declarations naming.index function where
  elements_fixed := fun _ _ _ _ hStep =>
    h.callsFixed (h.mem_of_executed hExecuted) hStep List.mem_cons_self
      (h.elements_fixed (h.mem_of_executed hExecuted) hStep)
  arrays_fixed := fun _ hStep _ _ _ hCopy =>
    h.callsFixed (h.mem_of_executed hExecuted) hStep hCopy rfl
  arms_fixed := fun _ _ _ _ hStep arm hArm =>
    h.callsFixed (h.mem_of_executed hExecuted) hStep (List.mem_map_of_mem hArm)
      ((h.union_fixed_of_executed hExecuted hStep).2 arm hArm)
  unions_fixed := fun _ _ _ _ hStep => (h.union_fixed_of_executed hExecuted hStep).1
  payload_plain := by
    intro step hStep copy hCopy hVarLen
    cases step with
    | fixedScalar field value => cases hCopy
    | fixedFill field value => cases hCopy
    | assign field made =>
        obtain rfl := List.mem_singleton.1 hCopy
        cases copy with
        | record source name varLen =>
            obtain rfl : varLen = true := hVarLen
            exact ⟨field, source, name, rfl⟩
        | scalar => cases hVarLen
        | array length => cases hVarLen
        | recordArray source name length => cases hVarLen
    | varLen field lengthField element made =>
        obtain rfl := List.mem_singleton.1 hCopy
        simp [h.elements_fixed (h.mem_of_executed hExecuted) hStep] at hVarLen
    | union field record discriminator arms =>
        obtain ⟨arm, hArm, rfl⟩ := List.mem_map.1 hCopy
        simp [(h.union_fixed_of_executed hExecuted hStep).2 arm hArm] at hVarLen

/-- **Plain moves**: the cursor moves with plain members only. -/
theorem movesPlainly (h : Compiled declarations request naming encoder.program)
    {function : EncodeFunction} (hExecuted : encoder.program.Executed function) :
    encoder.MovesPlainly function := by
  have hFunction := h.mem_of_executed hExecuted
  intro fuel step hStep
  refine ⟨fun hNoArray hNoMember input base => ?_, ?_⟩
  · refine Encoder.still_step hNoArray (fun copy hCopy source hSource callee hCallee => ?_) _ _ _
    obtain rfl := Encoder.source_of_encodeFunction hCallee
    have hMem := Encoder.mem_of_encodeFunction hCallee
    refine h.still_run fuel hMem ?_
    rw [h.varLen_callee hFunction hMem hStep hCopy hSource]
    by_contra hVarLen
    obtain ⟨field, name, target, hEq⟩ := (h.nestsPlainly hExecuted).payload_plain step hStep copy
      hCopy (by simpa using hVarLen)
    exact hNoMember _ _ _ hEq
  · rintro field lengthField element copy rfl count items start layout
    exact h.still_elements fuel hFunction hStep count items start layout

end Compiled

/-- **Nested variable-length data** is rejected: what compiles nests it in plain members only, and
if compiling fails for nesting, it names a member that nests it elsewhere. -/
theorem nested_payload_rejected (declarations : Declarations) (index : DirectiveIndex)
    (settings : Settings) (request : Request) :
    (∀ program, compile declarations index settings request = .ok program →
      ∀ function, program.Executed function →
        program.NestsPlainly declarations index function ∧
          ∀ encoder : Encoder, encoder.program = program → encoder.MovesPlainly function) ∧
    ∀ owner name, compile declarations index settings request =
        .error (.unsupportedNesting owner name) →
      ∃ declaration field, declarations.FieldIn request.roots owner declaration field ∧
        field.name = name ∧ (∀ spec, .overrideType spec ∉ index.lookup owner name) ∧
        field.Unsupported declarations index owner := by
  refine ⟨fun program hCompile function hExecuted => ?_, fun owner name hError => ?_⟩
  · obtain ⟨naming, rfl, h⟩ := compiled_of_compile hCompile
    refine ⟨?_, ?_⟩
    · -- Live types are those of an encoder, of which nothing but the program matters here.
      let encoder : Encoder := ⟨program, Table.empty, Table.empty, 0⟩
      have hEncoder : Compiled declarations request naming encoder.program := h
      exact hEncoder.nestsPlainly hExecuted
    · rintro encoder rfl
      exact h.movesPlainly hExecuted
  · exact failsOnly_compile _ hError

namespace Sample

/-- A box with two lists in it, each of which has a length of its own. -/
def boxes : Declarations :=
  Table.ofList
    [ ("chreTestBox", ⟨.struct, [⟨"pair", ⟨"struct chreTestList", .array 2⟩⟩]⟩)
    , ("chreTestList", ⟨.struct,
        [⟨"count", ⟨"uint8_t", .plain⟩⟩, ⟨"items", ⟨"const uint16_t", .pointer⟩⟩]⟩) ]

def boxesIndex : DirectiveIndex := ⟨[⟨"chreTestList", "items", .varLenArray "count"⟩]⟩

def boxesRequest : Request := ⟨"test", ["chreTestBox"], []⟩

/-- The graph of the box, which is variable-length because its lists are. -/
def boxesGraph : TypeGraph where
  entries :=
    [ ⟨⟨"chreTestBox", .struct, [⟨"pair", ⟨"struct chreTestList", .array 2⟩, []⟩]⟩, [1], [], true⟩
    , ⟨⟨"chreTestList", .struct,
        [ ⟨"count", ⟨"uint8_t", .plain⟩, []⟩
        , ⟨"items", ⟨"const uint16_t", .pointer⟩, [.varLenArray "count"]⟩ ]⟩, [], [0], true⟩ ]
  roots := [0]

/-- The types can be packed, but the search for size functions fails at the first one. -/
theorem compile_boxes :
    compile boxes boxesIndex {} boxesRequest =
      .error (.unsupportedNesting "chreTestBox" "pair") := by
  have hWithin :
      TypeGraph.buildWithin 20 boxes boxesIndex boxesRequest.roots = some boxesGraph := by
    decide +kernel
  have hBuild := TypeGraph.build_of_buildWithin hWithin
  let naming := Naming.forService boxesGraph boxesIndex {} boxesRequest.service
  have hRoots : boxesGraph.rootEntries.find? (fun entry => entry.isUnion) = none := by
    decide +kernel
  have hTypes : ∃ types, naming.packedTypes = .ok types := by
    have hSorted : boxesGraph.roots.Pairwise
        fun a b => boxesGraph.nameOf a ≤ boxesGraph.nameOf b := by decide +kernel
    have hFound : boxesGraph.depthFirstWithin 20 [] [] boxesGraph.roots = some [1, 0] := by
      decide +kernel
    have hOrder : naming.graph.declarationOrder = [1, 0] :=
      (TypeGraph.orders_of_depthFirstWithin hSorted hFound).2
    have hPacked :
        ((naming.graph.entriesOf [1, 0]).mapM naming.packedType).toOption.isSome = true := by
      decide +kernel
    unfold Naming.packedTypes
    rw [hOrder]
    exact ⟨Option.getD _ [], eq_ok_getD hPacked⟩
  have hSizes : naming.sizeFunctions = .error (.unsupportedNesting "chreTestBox" "pair") := by
    have hStart : (boxesGraph.rootEntries.filter TypeEntry.varLen).map (fun entry => entry.name) =
        ["chreTestBox"] := by decide +kernel
    have hVisit : naming.sizeSearch.visit "chreTestBox" =
        .error (.unsupportedNesting "chreTestBox" "pair") := by decide +kernel
    refine bind_eq_error.2 (.inl ?_)
    show naming.sizeSearch.run ((boxesGraph.rootEntries.filter TypeEntry.varLen).map
      fun entry => entry.name) = _
    rw [hStart, Worklist.run, List.reverse_singleton, Worklist.collect_of_notMem (by simp)]
    exact bind_eq_error.2 (.inl hVisit)
  obtain ⟨types, hTypes⟩ := hTypes
  refine bind_eq_error.2 (.inr ⟨boxesGraph, hBuild, ?_⟩)
  unfold programOf
  rw [hRoots]
  exact bind_eq_error.2 (.inr ⟨types, hTypes, bind_eq_error.2 (.inl hSizes)⟩)

/-- A batch nests what varies plainly, and the box of lists is rejected for its pair. -/
theorem nesting_of_batch_and_box :
    program.NestsPlainly declarations index convertBatch ∧
      ∃ declaration field, boxes.FieldIn boxesRequest.roots "chreTestBox" declaration field ∧
        field.name = "pair" ∧ field.Unsupported boxes boxesIndex "chreTestBox" := by
  have hExecuted : program.Executed convertBatch := by
    have hPoint : (program.entryPoints.head?.getD default) ∈ program.entryPoints ∧
        program.encodeFunction? (program.entryPoints.head?.getD default).source =
          some convertBatch := by decide +kernel
    exact .entry hPoint.1 hPoint.2
  obtain ⟨hBatch, _⟩ := nested_payload_rejected declarations index {} request
  obtain ⟨_, hBox⟩ := nested_payload_rejected boxes boxesIndex {} boxesRequest
  obtain ⟨declaration, field, hField, hName, _, hUnsupported⟩ := hBox _ _ compile_boxes
  exact ⟨(hBatch program compiles convertBatch hExecuted).1, declaration, field, hField, hName,
    hUnsupported⟩

end Sample

end WireSchema
