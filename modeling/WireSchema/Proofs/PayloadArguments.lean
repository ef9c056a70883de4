import WireSchema.Proofs.ClosedProgram
import WireSchema.Proofs.DocumentTrees
import WireSchema.Proofs.StillCursor

/-!
# Where the payload is passed

An encode function takes the payload if its type has a variable length.  The mark has been
made on the type graph, and the steps are chosen member by member, so that nothing in the
program itself makes a call fit the function it calls.  It does: a copy passes the payload
on exactly if the function it calls takes it, and a function that does not take it neither
stores an array nor passes the payload on.

The functions of the conversion document inherit this.  A call there has arguments for the
payload exactly if the function that it calls is defined with parameters for it, and then
the function around the call has a payload to pass.

## Main results

* `Compiled.payloadPassed`: what a compiled program says of its calls.
* `Compiled.callsMatch`: what its conversion document says of them.
* `payload_passed_where_needed`: both, and what it means for a run.
-/

namespace WireSchema

/-! ## Programs -/

/-- In the program a copy passes the payload on exactly if the function that it calls takes it,
and a function that takes no payload needs none. -/
structure Program.PayloadPassed (program : Program) : Prop where
  nodup_functions : (program.encodeFunctions.map EncodeFunction.function).Nodup
  /-- A function that takes no payload stores no array and passes no payload on. -/
  fixed_steps : ∀ encodes ∈ program.encodeFunctions, encodes.varLen = false →
    ∀ step ∈ encodes.steps,
      (∀ field lengthField element copy, step ≠ .varLen field lengthField element copy) ∧
        ∀ source function, .record source function true ∉ step.copies
  /-- The copy of a structure is marked as the function that it calls. -/
  record_calls : ∀ encodes ∈ program.encodeFunctions, ∀ step ∈ encodes.steps,
    ∀ source function varLen, .record source function varLen ∈ step.copies →
      ∃ callee ∈ program.encodeFunctions, callee.source = source ∧
        callee.function = function ∧ callee.varLen = varLen
  /-- The elements of a fixed array take no payload. -/
  array_calls : ∀ encodes ∈ program.encodeFunctions, ∀ step ∈ encodes.steps,
    ∀ source function length, .recordArray source function length ∈ step.copies →
      ∃ callee ∈ program.encodeFunctions, callee.source = source ∧
        callee.function = function ∧ callee.varLen = false
  /-- The elements of a variable-length array take no payload. -/
  element_calls : ∀ encodes ∈ program.encodeFunctions, ∀ field lengthField element copy,
    .varLen field lengthField element copy ∈ encodes.steps →
      ∀ source function, copy.call? = some (source, function) →
        ∃ callee ∈ program.encodeFunctions, callee.source = source ∧
          callee.function = function ∧ callee.varLen = false

/-- A call has arguments for the payload exactly if the function that it calls is defined with
parameters for it.  It passes parameters of the function around it, or variables that are
declared there. -/
structure Program.CallMatches (program : Program) (caller : CTree) (call : CCall) : Prop where
  defined : ∃ callee ∈ program.trees, callee.role = call.role ∧ callee.name = call.callee
  passes_iff : ∀ callee ∈ program.trees, callee.role = call.role → callee.name = call.callee →
    (call.PassesPayload ↔ callee.TakesPayload)
  caller_takes : call.payload = .parameters → caller.TakesPayload
  caller_declares : call.payload = .locals → caller.DeclaresPayload

/-- Every call in the conversion document fits the function that it calls and the function
around it. -/
def Program.CallsMatch (program : Program) : Prop :=
  ∀ caller ∈ program.trees, ∀ call ∈ caller.calls, program.CallMatches caller call

namespace Compiled

variable {declarations : Declarations} {request : Request} {naming : Naming} {program : Program}

/-- An encode function is known by its name. -/
theorem eq_of_function_eq (h : Compiled declarations request naming program)
    {encodes other : EncodeFunction} (hEncodes : encodes ∈ program.encodeFunctions)
    (hOther : other ∈ program.encodeFunctions) (hName : encodes.function = other.function) :
    encodes = other := by
  obtain ⟨entry, _, hMade⟩ := h.exists_entry hEncodes
  obtain ⟨otherEntry, _, hOtherMade⟩ := h.exists_entry hOther
  have hFunction := Naming.function_of_encodeFunction hMade
  rw [hName] at hFunction
  have hEntries := Naming.functionName_inj hFunction (Naming.function_of_encodeFunction hOtherMade)
  have hSources : encodes.source = other.source := by
    rw [(Naming.encodeFunction_eq_ok hMade).1, (Naming.encodeFunction_eq_ok hOtherMade).1, hEntries]
  have hFound := h.encodeFunction?_eq_some.2 ⟨hEncodes, hSources⟩
  rw [h.encodeFunction?_eq_some.2 ⟨hOther, rfl⟩] at hFound
  exact (Option.some.inj hFound).symm

theorem nodup_functions (h : Compiled declarations request naming program) :
    (program.encodeFunctions.map EncodeFunction.function).Nodup :=
  h.nodup_encode_sources.of_map.map_on fun _ hEncodes _ hOther =>
    h.eq_of_function_eq hEncodes hOther

/-- A copy calls a function of the program, and passes the payload on if that one takes it. -/
theorem call_target (h : Compiled declarations request naming program)
    {encodes : EncodeFunction} (hEncodes : encodes ∈ program.encodeFunctions) {step : Step}
    (hStep : step ∈ encodes.steps) {copy : Copy} (hCopy : copy ∈ step.copies)
    {source function : String} (hCall : copy.call? = some (source, function)) :
    ∃ callee ∈ program.encodeFunctions, callee.source = source ∧ callee.function = function ∧
      callee.varLen = copy.varLen := by
  obtain ⟨before, after, hSplit⟩ := List.append_of_mem hEncodes
  obtain ⟨callee, hBefore, hSource, hFunction⟩ := h.call_before hSplit hStep hCopy hCall
  have hCallee : callee ∈ program.encodeFunctions := hSplit ▸ List.mem_append_left _ hBefore
  refine ⟨callee, hCallee, hSource, hFunction, ?_⟩
  subst hSource
  exact h.varLen_callee hEncodes hCallee hStep hCopy (Copy.callee?_of_call? hCall)

/-- **Payload in the program**: in a compiled program the payload is passed where it is
needed. -/
theorem payloadPassed (h : Compiled declarations request naming program) :
    program.PayloadPassed where
  nodup_functions := h.nodup_functions
  fixed_steps := by
    intro encodes hEncodes hFixed step hStep
    obtain ⟨hNoArray, hCopies⟩ := h.fixed_steps hEncodes hFixed hStep
    refine ⟨hNoArray, fun source function hCopy => ?_⟩
    have hFlag := hCopies _ hCopy
    simp [Copy.varLen] at hFlag
  record_calls := fun _ hEncodes _ hStep _ _ _ hCopy => h.call_target hEncodes hStep hCopy rfl
  array_calls := fun _ hEncodes _ hStep _ _ _ hCopy => h.call_target hEncodes hStep hCopy rfl
  element_calls := by
    intro encodes hEncodes field lengthField element copy hStep source function hCall
    obtain ⟨callee, hCallee, hSource, hFunction, hFlag⟩ :=
      h.call_target hEncodes hStep List.mem_cons_self hCall
    exact ⟨callee, hCallee, hSource, hFunction, hFlag.trans (h.elements_fixed hEncodes hStep)⟩

end Compiled

/-! ## The calls of a function -/

section Calls

variable {call : CCall}

/-- The call is that of the copy: it has arguments for the payload if the copy passes it on. -/
structure Copy.Makes (copy : Copy) (call : CCall) : Prop where
  role : call.role = .convert
  callee : ∃ source, copy.call? = some (source, call.callee)
  payload : call.payload = if copy.varLen then .parameters else .nothing

/-- The statement of a copy has no other calls. -/
theorem Copy.makes_of_mem_calls {copy : Copy} {source target : String}
    (h : call ∈ (copy.tree source target).calls) : copy.Makes call := by
  cases copy with
  | scalar => cases h
  | array length => cases h
  | record name function varLen =>
      obtain rfl := List.mem_singleton.1 h
      exact ⟨rfl, ⟨name, rfl⟩, rfl⟩
  | recordArray name function length =>
      obtain rfl := List.mem_singleton.1 h
      exact ⟨rfl, ⟨name, rfl⟩, rfl⟩

/-- The statements that store an array call what copies an element. -/
theorem callsAll_storeStatements (names : CNames) :
    CStatement.callsAll (CStmt.trees names storeStatements) =
      (names.copy.tree ("in->" ++ names.field ++ "[i]") (names.field ++ "[i]")).calls := by
  simp [storeStatements, reserveStatements, zeroStatements, CStmt.trees, CStmt.tree,
    CStatement.callsAll, CStatement.calls, CPiece.calls]

/-- The calls of a step are those of its copies. -/
theorem Step.of_mem_calls {step : Step} (h : call ∈ CStatement.callsAll step.tree) :
    ∃ copy ∈ step.copies, copy.Makes call := by
  cases step with
  | fixedScalar field value => cases h
  | fixedFill field value => cases h
  | assign field copy =>
      have hCall : call ∈ (copy.tree ("in->" ++ field) ("out->" ++ field)).calls := by
        simpa [Step.tree, CStatement.callsAll] using h
      exact ⟨copy, List.mem_cons_self, Copy.makes_of_mem_calls hCall⟩
  | varLen field lengthField element copy =>
      rw [Step.tree, callsAll_storeStatements] at h
      exact ⟨copy, List.mem_cons_self, Copy.makes_of_mem_calls h⟩
  | union field record discriminator arms =>
      have hArms : call ∈ CStatement.callsAll (arms.map (UnionArm.tree field)) := by
        simpa [Step.tree, unionTree, CStatement.callsAll, CStatement.calls, CPiece.calls] using h
      obtain ⟨arm, hArm, hCase⟩ := CStatement.mem_callsAll_map.1 hArms
      have hCall : call ∈ (arm.copy.tree ("in->" ++ field ++ "." ++ arm.member)
          ("out->" ++ field ++ "." ++ arm.member)).calls := by
        simpa [UnionArm.tree, CStatement.callsAll, CStatement.calls, CPiece.calls] using hCase
      exact ⟨arm.copy, List.mem_map_of_mem hArm, Copy.makes_of_mem_calls hCall⟩

theorem of_mem_calls_spacedTree {afterBlock? : Option Bool} {steps : List Step}
    (h : call ∈ CStatement.callsAll (spacedTree afterBlock? steps)) :
    ∃ step ∈ steps, call ∈ CStatement.callsAll step.tree := by
  induction steps generalizing afterBlock? with
  | nil => cases h
  | cons step rest ih =>
      have hParts : call ∈ CStatement.callsAll step.tree ∨
          call ∈ CStatement.callsAll (spacedTree (some (isBlock step.text)) rest) := by
        simpa [spacedTree] using h
      rcases hParts with hHead | hRest
      · exact ⟨step, List.mem_cons_self, hHead⟩
      · obtain ⟨other, hOther, hCall⟩ := ih hRest
        exact ⟨other, List.mem_cons_of_mem _ hOther, hCall⟩

/-- A size function calls the size functions of its nested terms, and passes no payload. -/
theorem SizeFunction.of_mem_calls {f : SizeFunction} (h : call ∈ f.tree.calls) :
    call.role = .sizeOf ∧ call.payload = .nothing ∧
      ∃ field source target, .nested field source target call.callee ∈ f.terms := by
  have hTerms : call ∈ CStatement.callsAll (f.terms.map (SizeTerm.tree f.parameter)) := by
    simpa [CTree.calls, SizeFunction.tree, CStatement.callsAll, CStatement.calls, CPiece.calls]
      using h
  obtain ⟨term, hTerm, hCall⟩ := CStatement.mem_callsAll_map.1 hTerms
  cases term with
  | varLen field lengthField element => cases hCall
  | nested field source target function =>
      obtain rfl := List.mem_singleton.1 hCall
      exact ⟨rfl, rfl, field, source, target, hTerm⟩

/-- An entry point calls the size function that it allocates by, and its encode function with
the payload that it declares. -/
theorem EntryPoint.of_mem_calls {entry : EntryPoint} {separator : String}
    (h : call ∈ (entry.tree separator).calls) :
    (call.role = .sizeOf ∧ entry.size = .dynamic call.callee ∧ call.payload = .nothing) ∨
    (call.role = .convert ∧ call.callee = entry.encoder ∧
      call.payload = if entry.varLen then .locals else .nothing) := by
  have hParts : call ∈ CPiece.calls entry.sizeTree ∨
      call ∈ CStatement.callsAll entry.encodeTree := by
    simpa [CTree.calls, EntryPoint.tree, CStatement.callsAll, CStatement.calls, CPiece.calls]
      using h
  rcases hParts with hSize | hEncode
  · unfold EntryPoint.sizeTree at hSize
    split at hSize
    · cases hSize
    · rename_i function hDynamic
      obtain rfl := List.mem_singleton.1 hSize
      exact .inl ⟨rfl, hDynamic, rfl⟩
  · unfold EntryPoint.encodeTree at hEncode
    split at hEncode <;> rename_i hVarLen <;> obtain rfl := List.mem_singleton.1 hEncode
    · exact .inr ⟨rfl, rfl, (if_pos hVarLen).symm⟩
    · exact .inr ⟨rfl, rfl, (if_neg hVarLen).symm⟩

end Calls

/-! ## Who takes the payload -/

/-- A size function has one parameter, which is not for the payload. -/
theorem SizeFunction.not_takesPayload (f : SizeFunction) : ¬ f.tree.TakesPayload := by
  intro h
  have hLength := h.length_le
  simp [SizeFunction.tree, payloadVariables] at hLength

/-- An encode function takes the payload if its type has a variable length. -/
theorem EncodeFunction.takesPayload_iff (f : EncodeFunction) :
    f.tree.TakesPayload ↔ f.varLen = true := by
  constructor
  · intro h
    have hLength := h.length_le
    by_contra hFixed
    simp [EncodeFunction.tree, payloadVariables, hFixed] at hLength
  · intro h
    refine ⟨[⟨"const " ++ sourceType f.source ++ " *", "in"⟩, ⟨f.target ++ " *", "out"⟩], ?_⟩
    simp [EncodeFunction.tree, h]

/-- An entry point declares the payload if its type has a variable length. -/
theorem EntryPoint.declaresPayload {entry : EntryPoint} (separator : String)
    (h : entry.varLen = true) : (entry.tree separator).DeclaresPayload := by
  intro needed hNeeded
  simp only [List.mem_cons, List.not_mem_nil, or_false] at hNeeded
  rcases hNeeded with rfl | rfl | rfl <;>
    simp [CTree.variables, EntryPoint.tree, EntryPoint.encodeTree, h, CStatement.declared?]

section Trees

variable {program : Program} {tree : CTree}

/-- A function that computes a size does not take the payload. -/
theorem Program.not_takesPayload_of_sizeOf (h : tree ∈ program.trees)
    (hRole : tree.role = .sizeOf) : ¬ tree.TakesPayload := by
  rcases program.of_mem_trees h with ⟨sizes, _, rfl⟩ | ⟨_, _, rfl⟩ | ⟨_, _, _, rfl⟩
  · exact sizes.not_takesPayload
  · cases hRole
  · cases hRole

theorem Program.encodes_of_convert (h : tree ∈ program.trees) (hRole : tree.role = .convert) :
    ∃ encodes ∈ program.encodeFunctions, tree = encodes.tree := by
  rcases program.of_mem_trees h with ⟨_, _, rfl⟩ | hEncodes | ⟨_, _, _, rfl⟩
  · cases hRole
  · exact hEncodes
  · cases hRole

end Trees

/-! ## The conversion document -/

/-- A call of a size function passes no payload, which no size function takes. -/
theorem Program.callMatches_of_sizeOf {program : Program} {sizes : SizeFunction}
    (hSizes : sizes ∈ program.sizeFunctions) {call : CCall} (hRole : call.role = .sizeOf)
    (hCallee : sizes.function = call.callee) (hPayload : call.payload = .nothing)
    (caller : CTree) : program.CallMatches caller call where
  defined := ⟨sizes.tree, Program.sizes_mem_trees hSizes, hRole.symm, hCallee⟩
  passes_iff := by
    intro callee hMem hSame _
    simp [CCall.PassesPayload, hPayload,
      Program.not_takesPayload_of_sizeOf hMem (hSame.trans hRole)]
  caller_takes := fun h => by simp [hPayload] at h
  caller_declares := fun h => by simp [hPayload] at h

namespace Compiled

variable {declarations : Declarations} {request : Request} {naming : Naming} {program : Program}

/-- A call of an encode function passes the payload if the function takes it. -/
theorem callMatches_of_convert (h : Compiled declarations request naming program)
    {encodes : EncodeFunction} (hEncodes : encodes ∈ program.encodeFunctions) {call : CCall}
    (hRole : call.role = .convert) (hCallee : encodes.function = call.callee)
    (hPasses : call.PassesPayload ↔ encodes.varLen = true) {caller : CTree}
    (hTakes : call.payload = .parameters → caller.TakesPayload)
    (hDeclares : call.payload = .locals → caller.DeclaresPayload) :
    program.CallMatches caller call where
  defined := ⟨encodes.tree, Program.encodes_mem_trees hEncodes, hRole.symm, hCallee⟩
  passes_iff := by
    intro callee hMem hSame hName
    obtain ⟨other, hOther, rfl⟩ := Program.encodes_of_convert hMem (hSame.trans hRole)
    obtain rfl := h.eq_of_function_eq hEncodes hOther (hCallee.trans hName.symm)
    exact hPasses.trans encodes.takesPayload_iff.symm
  caller_takes := hTakes
  caller_declares := hDeclares

/-- The calls of a size function are of size functions. -/
theorem sizes_call_matches (h : Compiled declarations request naming program)
    {sizes : SizeFunction} (hSizes : sizes ∈ program.sizeFunctions) {call : CCall}
    (hCall : call ∈ sizes.tree.calls) : program.CallMatches sizes.tree call := by
  obtain ⟨hRole, hPayload, field, source, target, hTerm⟩ := SizeFunction.of_mem_calls hCall
  obtain ⟨before, after, hSplit⟩ := List.append_of_mem hSizes
  obtain ⟨callee, hCallee, _, _, hFunction⟩ := h.nested_before hSplit hTerm
  have hMem : callee ∈ program.sizeFunctions := hSplit ▸ List.mem_append_left _ hCallee
  exact Program.callMatches_of_sizeOf hMem hRole hFunction hPayload _

/-- A function with a copy that passes the payload on takes the payload. -/
theorem takes_of_passes (h : Compiled declarations request naming program)
    {encodes : EncodeFunction} (hEncodes : encodes ∈ program.encodeFunctions) {step : Step}
    (hStep : step ∈ encodes.steps) {copy : Copy} (hCopy : copy ∈ step.copies)
    (hPasses : copy.varLen = true) : encodes.varLen = true := by
  by_contra hFixed
  have hNone := (h.fixed_steps hEncodes (by simpa using hFixed) hStep).2 copy hCopy
  simp [hNone] at hPasses

/-- The calls of an encode function are those of its copies, and hand on its own parameters. -/
theorem encodes_call_matches (h : Compiled declarations request naming program)
    {encodes : EncodeFunction} (hEncodes : encodes ∈ program.encodeFunctions) {call : CCall}
    (hCall : call ∈ encodes.tree.calls) : program.CallMatches encodes.tree call := by
  obtain ⟨step, hStep, hMade⟩ := of_mem_calls_spacedTree hCall
  obtain ⟨copy, hCopy, hRole, ⟨source, hCalled⟩, hPayload⟩ := Step.of_mem_calls hMade
  obtain ⟨callee, hCallee, _, hFunction, hFlag⟩ := h.call_target hEncodes hStep hCopy hCalled
  refine h.callMatches_of_convert hCallee hRole hFunction ?_ ?_ ?_
  · rw [CCall.PassesPayload, hPayload, hFlag]
    cases copy.varLen <;> simp
  · intro hParameters
    refine encodes.takesPayload_iff.2 (h.takes_of_passes hEncodes hStep hCopy ?_)
    by_contra hFixed
    simp [hPayload, hFixed] at hParameters
  · intro hLocals
    rw [hPayload] at hLocals
    split at hLocals <;> cases hLocals

/-- An entry point calls a size function at most, and the encode function of its root, to which
it hands a payload of its own. -/
theorem point_call_matches (h : Compiled declarations request naming program)
    {point : EntryPoint} (hPoint : point ∈ program.entryPoints) (separator : String)
    {call : CCall} (hCall : call ∈ (point.tree separator).calls) :
    program.CallMatches (point.tree separator) call := by
  rcases EntryPoint.of_mem_calls hCall with
    ⟨hRole, hSize, hPayload⟩ | ⟨hRole, hCallee, hPayload⟩
  · have hSized := h.size_mem hPoint
    simp only [EntryPoint.SizedIn, hSize] at hSized
    obtain ⟨_, sizes, hSizes, _, hFunction⟩ := hSized
    exact Program.callMatches_of_sizeOf hSizes hRole hFunction hPayload _
  · obtain ⟨entry, _, hMade, hStruct, hOrder⟩ := h.root_entry hPoint
    obtain ⟨encodes, hEncodes, hFunction⟩ := h.exists_encode_function hOrder hStruct
    have hFlag : encodes.varLen = point.varLen :=
      (Naming.encodeFunction_eq_ok hFunction).2.1.trans (Naming.entryPoint_eq_ok hMade).2.1.symm
    have hName := Naming.function_of_encodeFunction hFunction
    rw [(Naming.names_of_entryPoint hMade).1] at hName
    refine h.callMatches_of_convert hEncodes hRole
      ((Except.ok.inj hName).symm.trans hCallee.symm) ?_ ?_ ?_
    · rw [CCall.PassesPayload, hPayload, hFlag]
      cases point.varLen <;> simp
    · intro hParameters
      rw [hPayload] at hParameters
      split at hParameters <;> cases hParameters
    · intro hLocals
      refine EntryPoint.declaresPayload separator ?_
      by_contra hFixed
      simp [hPayload, hFixed] at hLocals

/-- **Payload in the document**: in the conversion document of a compiled program the payload is
passed where it is needed. -/
theorem callsMatch (h : Compiled declarations request naming program) : program.CallsMatch := by
  intro caller hCaller call hCall
  rcases program.of_mem_trees hCaller with
    ⟨sizes, hSizes, rfl⟩ | ⟨encodes, hEncodes, rfl⟩ | ⟨point, hPoint, separator, rfl⟩
  · exact h.sizes_call_matches hSizes hCall
  · exact h.encodes_call_matches hEncodes hCall
  · exact h.point_call_matches hPoint separator hCall

end Compiled

/-- **The payload is passed where it is needed**: in a compiled program and in its conversion
document calls fit the functions that they call, and a function that takes no payload never
moves the cursor. -/
theorem payload_passed_where_needed {declarations : Declarations} {index : DirectiveIndex}
    {settings : Settings} {request : Request} {program : Program}
    (hCompile : compile declarations index settings request = .ok program) :
    program.PayloadPassed ∧
      ((∀ other : Settings, (program.conversionDocument other).fragments =
          program.preamble other ++ program.trees.map CTree.text) ∧
        program.CallsMatch) ∧
      ∀ encoder : Encoder, encoder.program = program → ∀ fuel,
        ∀ function ∈ program.encodeFunctions, function.varLen = false →
          ∀ value base, (encoder.run fuel function value base).Still := by
  obtain ⟨naming, _, hCompiled⟩ := compiled_of_compile hCompile
  refine ⟨hCompiled.payloadPassed, ⟨program.fragments_trees, hCompiled.callsMatch⟩, ?_⟩
  rintro encoder rfl fuel function hFunction hFixed value base
  exact hCompiled.still_run fuel hFunction hFixed value base

namespace Sample

/-- The encode function of an item. -/
def convertItem : EncodeFunction := (program.encodeFunction? "chreTestItem").getD default

/-- A batch hands each of its items to a function that takes no payload, and that function
leaves the cursor alone. -/
theorem items_take_no_payload :
    convertBatch.varLen = true ∧ convertItem.varLen = false ∧ program.CallsMatch ∧
      ∀ encoder : Encoder, encoder.program = program → ∀ fuel value base,
        (encoder.run fuel convertItem value base).Still := by
  have hItem : convertItem ∈ program.encodeFunctions ∧ convertItem.varLen = false ∧
      convertBatch.varLen = true := by decide +kernel
  obtain ⟨hMem, hFixed, hVarLen⟩ := hItem
  obtain ⟨_, ⟨_, hMatch⟩, hStill⟩ := payload_passed_where_needed compiles
  exact ⟨hVarLen, hFixed, hMatch, fun encoder hProgram fuel value base =>
    hStill encoder hProgram fuel convertItem hMem hFixed value base⟩

end Sample

end WireSchema
