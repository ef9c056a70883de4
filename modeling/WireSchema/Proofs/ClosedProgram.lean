import WireSchema.Proofs.ContainedTypes
import WireSchema.Proofs.GeneratedNames
import WireSchema.Proofs.ReferenceEncoding

/-!
# Programs are closed and in order

The C of a program has no forward declarations.  So whatever it refers to has to stand
before the reference, under the name that the reference has: the type of a member, the
function that encodes a nested structure, the function that computes its size.
`Program.CalleeFirst` says so.  `Program.Covers` says that a program has what the request
is about and nothing else: the types that the roots contain, functions for the
structures among them, and one entry point for each root.

## Main results

* `Compiled.calleeFirst`: what a compiled program refers to comes first.
* `Compiled.covers`: what a compiled program consists of.
* `compiled_program_closed`: both, for every request that compiles.
-/

namespace WireSchema

/-- Whatever the program refers to stands before the reference, under the same name. -/
structure Program.CalleeFirst (program : Program) : Prop where
  nodup_types : (program.types.map PackedType.source).Nodup
  /-- The type of a member, or of the elements of one. -/
  record_before : ∀ before type after, program.types = before ++ type :: after →
    ∀ member ∈ type.members, ∀ ref, member.placement.representation = .record ref →
      ∃ other ∈ before, other.source = ref.source ∧ other.target = ref.target ∧
        other.kind = ref.kind
  nodup_sizeFunctions : (program.sizeFunctions.map SizeFunction.source).Nodup
  /-- The size function of a nested structure. -/
  nested_before : ∀ before sizes after, program.sizeFunctions = before ++ sizes :: after →
    ∀ field source target function, .nested field source target function ∈ sizes.terms →
      ∃ other ∈ before, other.source = source ∧ other.target = target ∧
        other.function = function
  nodup_encodeFunctions : (program.encodeFunctions.map EncodeFunction.source).Nodup
  /-- The encode function of a copied structure: of a member, of the elements of an array, or
  of the member of a union. -/
  call_before : ∀ before encodes after, program.encodeFunctions = before ++ encodes :: after →
    ∀ step ∈ encodes.steps, ∀ copy ∈ step.copies, ∀ source function,
      copy.call? = some (source, function) →
        ∃ other ∈ before, other.source = source ∧ other.function = function

/-- An entry point allocates what the size function of its type says, if the type has a
variable length, and the size of the packed type otherwise. -/
def EntryPoint.SizedIn (point : EntryPoint) (program : Program) (isVarLen : Prop) : Prop :=
  match point.size with
  | .static => ¬ isVarLen
  | .dynamic function =>
    isVarLen ∧ ∃ sizes ∈ program.sizeFunctions, sizes.source = point.source ∧
      sizes.function = function

/-- The program consists of what the request is about. -/
structure Program.Covers (program : Program) (declarations : Declarations)
    (index : DirectiveIndex) (request : Request) : Prop where
  types_iff : ∀ name, name ∈ program.types.map PackedType.source ↔
    declarations.Contained request.roots name
  encodeFunctions_iff : ∀ name, name ∈ program.encodeFunctions.map EncodeFunction.source ↔
    declarations.Contained request.roots name ∧
      ∃ declaration, declarations.get? name = some declaration ∧ declaration.kind = .struct
  entryPoints_eq : program.entryPoints.map EntryPoint.source = request.roots
  encoder_mem : ∀ point ∈ program.entryPoints, ∃ encodes ∈ program.encodeFunctions,
    encodes.source = point.source ∧ encodes.function = point.encoder
  size_mem : ∀ point ∈ program.entryPoints,
    point.SizedIn program (declarations.IsVarLen index point.source)

/-- A request is made by naming a service and adding to it. -/
inductive Request.Built : Request → Prop
  | forService (service : String) : Built (Request.forService service)
  | addRoot {request : Request} (name : String) : Built request → Built (request.addRoot name)
  | addInclude {request : Request} (path : String) :
      Built request → Built (request.addInclude path)

/-- A request that was built names no root twice. -/
theorem Request.Built.nodup_roots {request : Request} (h : request.Built) :
    request.roots.Nodup := by
  induction h with
  | forService service => exact List.nodup_nil
  | addRoot name _ ih =>
      unfold Request.addRoot
      split
      · exact ih
      · rename_i hNew
        exact List.nodup_append.2 ⟨ih, List.nodup_singleton name, fun root hRoot other hOther =>
          fun hSame => hNew (List.mem_singleton.1 hOther ▸ hSame ▸ hRoot)⟩
  | addInclude path _ ih => exact ih

section Compiled

variable {declarations : Declarations} {request : Request} {naming : Naming} {program : Program}

/-- The root types have the names that the request lists. -/
theorem TypeGraph.Sound.rootEntries_names {index : DirectiveIndex} {graph : TypeGraph}
    {roots : List String} (h : graph.Sound declarations index roots) :
    graph.rootEntries.map (fun entry => entry.name) = roots := by
  have hRoots := h.root_ids
  clear h
  unfold rootEntries entriesOf
  generalize graph.roots = ids at hRoots
  induction hRoots with
  | nil => rfl
  | cons hHead _ ih =>
      obtain ⟨entry, hEntry, hName⟩ := hHead
      rw [List.filterMap_cons_some hEntry, List.map_cons, ih, hName]

theorem Copy.callee?_of_call? {copy : Copy} {source function : String}
    (h : copy.call? = some (source, function)) : copy.callee? = some source := by
  cases copy <;> cases h <;> rfl

namespace Compiled

/-! ## Types -/

/-- A type that is declared before another has its packed type before the other's. -/
theorem exists_type_order (h : Compiled declarations request naming program)
    {before after : List PackedType} {type : PackedType}
    (hSplit : program.types = before ++ type :: after) :
    ∃ lead entry tail,
      naming.graph.entriesOf naming.graph.declarationOrder = lead ++ entry :: tail ∧
        naming.packedType entry = .ok type ∧
        ∀ other ∈ lead, ∃ packed ∈ before, naming.packedType other = .ok packed := by
  have hAll := h.types
  rw [hSplit] at hAll
  obtain ⟨lead, rest, hOrder, hLead, hRest⟩ := exists_append_of_forall₂ hAll
  obtain ⟨entry, tail, hMade, _, rfl⟩ := List.forall₂_cons_right_iff.1 hRest
  exact ⟨lead, entry, tail, hOrder, hMade, fun other hOther => exists_right_of_mem hLead hOther⟩

theorem record_before (h : Compiled declarations request naming program)
    {before after : List PackedType} {type : PackedType}
    (hSplit : program.types = before ++ type :: after) {packed : PackedMember}
    (hPacked : packed ∈ type.members) {ref : RecordRef}
    (hRef : packed.placement.representation = .record ref) :
    ∃ other ∈ before, other.source = ref.source ∧ other.target = ref.target ∧
      other.kind = ref.kind := by
  obtain ⟨lead, entry, tail, hOrder, hMade, hLead⟩ := h.exists_type_order hSplit
  have hEnum := h.sound.enumeration_postOrder (naming.graph.sortByName naming.graph.roots)
  obtain ⟨_, _, hMembers⟩ := Naming.packedType_eq_ok hMade
  obtain ⟨member, hMember, hPlaced⟩ := exists_left_of_mem hMembers hPacked
  obtain ⟨_, _, representation, hRepresentation, hPlacement⟩ := Naming.packedMember_eq_ok hPlaced
  have hRecord : representation = .record ref := by
    rw [← hRef, hPlacement]
    split <;> rfl
  rcases Naming.representation_eq_ok hRepresentation with
    ⟨spec, _, hEq⟩ | ⟨name, made, _, hName, hMadeRef, hEq⟩ | ⟨_, _, hEq⟩
  · cases hRecord.symm.trans hEq
  · cases hRecord.symm.trans hEq
    obtain ⟨hSource, nested, hFind, hKind⟩ := Naming.recordRef_eq_ok hMadeRef
    obtain ⟨hNested, hSame⟩ := h.sound.find?_eq_some.1 hFind
    -- The member names the nested type, so it is declared before the type of the member.
    have hBefore : nested ∈ lead := by
      refine hEnum.nested_before lead entry tail hOrder nested hNested ?_
      rw [hSame]
      exact List.mem_filterMap.2 ⟨member, hMember, hName⟩
    obtain ⟨other, hOther, hPackedType⟩ := hLead nested hBefore
    obtain ⟨hOtherSource, hOtherKind, _⟩ := Naming.packedType_eq_ok hPackedType
    have hTarget := Naming.target_of_packedType hPackedType
    rw [hSame, Naming.target_of_recordRef hMadeRef] at hTarget
    exact ⟨other, hOther, by rw [hOtherSource, hSame, hSource], (Except.ok.inj hTarget).symm,
      hOtherKind.trans hKind.symm⟩
  · cases hRecord.symm.trans hEq

/-! ## Size functions -/

/-- Size functions are made for some of the types in dependency order. -/
theorem exists_sizeFunctions (h : Compiled declarations request naming program) :
    ∃ needed : List (String × List SizeTerm),
      (needed.map Prod.fst).Nodup ∧
        List.Forall₂ (fun pair sizes => naming.sizeFunction pair.1 pair.2 = .ok sizes)
          needed program.sizeFunctions := by
  obtain ⟨found, _, hMade⟩ := bind_eq_ok.1 h.sizeFunctions
  refine ⟨_, ?_, mapM_eq_ok.1 hMade⟩
  have hNames : ∀ types : List TypeEntry,
      (types.filterMap fun entry =>
        (found.lookup entry.name).map fun terms => (entry.name, terms)).map Prod.fst =
      (types.map fun entry => entry.name).filterMap fun name =>
        (found.lookup name).map fun _ => name := by
    intro types
    rw [List.map_filterMap, List.filterMap_map]
    exact List.filterMap_congr fun entry _ => Option.map_map Prod.fst _ _
  rw [hNames]
  refine (h.sound.enumeration_postOrder naming.graph.roots).nodup_names.filterMap ?_
  intro name other made hName hOther
  obtain ⟨_, _, rfl⟩ := Option.map_eq_some_iff.1 hName
  obtain ⟨_, _, hSame⟩ := Option.map_eq_some_iff.1 hOther
  exact hSame.symm

theorem nodup_size_sources (h : Compiled declarations request naming program) :
    (program.sizeFunctions.map SizeFunction.source).Nodup := by
  obtain ⟨needed, hNodup, hMade⟩ := h.exists_sizeFunctions
  rw [map_eq_of_forall₂ (f := Prod.fst) hMade
    fun pair sizes hSizes => (Naming.sizeFunction_eq_ok hSizes).1]
  exact hNodup

/-- A size function has the names made for its type. -/
theorem size_function_names (h : Compiled declarations request naming program)
    {sizes : SizeFunction} (hSizes : sizes ∈ program.sizeFunctions) :
    naming.typeName sizes.source = .ok sizes.target ∧
      naming.functionName .sizeOf sizes.source = .ok sizes.function := by
  obtain ⟨needed, _, hMade⟩ := h.exists_sizeFunctions
  obtain ⟨pair, _, hSize⟩ := exists_left_of_mem hMade hSizes
  rw [(Naming.sizeFunction_eq_ok hSize).1]
  exact Naming.names_of_sizeFunction hSize

theorem nested_before (h : Compiled declarations request naming program)
    {before after : List SizeFunction} {sizes : SizeFunction}
    (hSplit : program.sizeFunctions = before ++ sizes :: after)
    {field source target function : String}
    (hTerm : .nested field source target function ∈ sizes.terms) :
    ∃ other ∈ before, other.source = source ∧ other.target = target ∧
      other.function = function := by
  obtain ⟨lead, entry, tail, hOrder, _, hTerms, hLead⟩ := h.exists_size_order hSplit
  have hCallee : source ∈ sizes.terms.filterMap Naming.callee? :=
    List.mem_filterMap.2 ⟨_, hTerm, rfl⟩
  obtain ⟨nested, hNested, rfl, hName⟩ := h.nested_of_callee hTerms hCallee
  have hBefore := (h.sound.enumeration_postOrder naming.graph.roots).nested_before lead entry tail
    hOrder nested hNested hName
  have hSizes : sizes ∈ program.sizeFunctions := by simp [hSplit]
  obtain ⟨other, hOther, hSource⟩ :=
    hLead nested hBefore (h.sizeFunction?_of_callee hSizes hCallee)
  have hMem : other ∈ program.sizeFunctions := hSplit ▸ List.mem_append_left _ hOther
  obtain ⟨hTarget, hFunction⟩ := h.size_function_names hMem
  -- The term was made for a member of the type, and it has the same names.
  obtain ⟨member, _, hAdds⟩ := Naming.exists_counted_member hTerms hTerm
  obtain ⟨hTermTarget, hTermFunction⟩ := Naming.names_of_sizeTerm? hAdds
  rw [hSource, hTermTarget] at hTarget
  rw [hSource, hTermFunction] at hFunction
  exact ⟨other, hOther, hSource, (Except.ok.inj hTarget).symm, (Except.ok.inj hFunction).symm⟩

/-! ## Encode functions -/

theorem call_before (h : Compiled declarations request naming program)
    {before after : List EncodeFunction} {encodes : EncodeFunction}
    (hSplit : program.encodeFunctions = before ++ encodes :: after) {step : Step}
    (hStep : step ∈ encodes.steps) {copy : Copy} (hCopy : copy ∈ step.copies)
    {source function : String} (hCall : copy.call? = some (source, function)) :
    ∃ other ∈ before, other.source = source ∧ other.function = function := by
  obtain ⟨lead, entry, tail, hOrder, _, hMade, hLead⟩ := h.exists_order hSplit
  obtain ⟨_, _, hSteps⟩ := Naming.encodeFunction_eq_ok hMade
  obtain ⟨member, hMember, hLowered⟩ := exists_left_of_mem hSteps hStep
  obtain ⟨callee, hCallee, rfl, hStruct, _⟩ :=
    h.callee_before hOrder hMember hLowered hCopy (Copy.callee?_of_call? hCall)
  obtain ⟨other, hOther, hEncodes⟩ := hLead callee hCallee hStruct
  have hFunction := Naming.function_of_encodeFunction hEncodes
  rw [Naming.function_of_step hLowered hCopy hCall] at hFunction
  exact ⟨other, hOther, (Naming.encodeFunction_eq_ok hEncodes).1, (Except.ok.inj hFunction).symm⟩

/-- **Callee first**: in a compiled program whatever is referred to stands before. -/
theorem calleeFirst (h : Compiled declarations request naming program) : program.CalleeFirst where
  nodup_types := h.nodup_type_sources
  record_before := fun _ _ _ hSplit _ hMember _ hRef => h.record_before hSplit hMember hRef
  nodup_sizeFunctions := h.nodup_size_sources
  nested_before := fun _ _ _ hSplit _ _ _ _ hTerm => h.nested_before hSplit hTerm
  nodup_encodeFunctions := h.nodup_encode_sources
  call_before := fun _ _ _ hSplit _ hStep _ hCopy _ _ hCall =>
    h.call_before hSplit hStep hCopy hCall

/-! ## What the program covers -/

theorem types_iff (h : Compiled declarations request naming program) (name : String) :
    name ∈ program.types.map PackedType.source ↔ declarations.Contained request.roots name := by
  rw [← h.sound.mem_names_iff, map_eq_of_forall₂ (f := fun entry : TypeEntry => entry.name) h.types
    fun entry type hType => (Naming.packedType_eq_ok hType).1, List.mem_map]
  exact exists_congr fun entry => and_congr_left fun _ => h.sound.mem_declarationOrder_iff entry

theorem encodeFunctions_iff (h : Compiled declarations request naming program) (name : String) :
    name ∈ program.encodeFunctions.map EncodeFunction.source ↔
      declarations.Contained request.roots name ∧
        ∃ declaration, declarations.get? name = some declaration ∧ declaration.kind = .struct := by
  have hKind : ∀ entry ∈ naming.graph.entries, (entry.isUnion = false ↔
      ∃ declaration, declarations.get? entry.name = some declaration ∧
        declaration.kind = .struct) := by
    intro entry hEntry
    obtain ⟨declaration, hGet, hSame, _⟩ := h.sound.declared entry hEntry
    rw [hGet, Outline.isUnion, AggregateKind.isUnion_eq_false, hSame]
    simp
  rw [← h.sound.mem_names_iff, map_eq_of_forall₂ (f := fun entry : TypeEntry => entry.name)
    h.encodeFunctions fun entry function hMade => (Naming.encodeFunction_eq_ok hMade).1,
    List.mem_map]
  have hGraph := (h.sound.enumeration_postOrder naming.graph.roots).mem_entries
  constructor
  · rintro ⟨entry, hEntry, rfl⟩
    obtain ⟨hMem, hStruct⟩ := List.mem_filter.1 hEntry
    exact ⟨⟨entry, hMem, rfl⟩, (hKind entry (hGraph entry hMem)).1 (by simpa using hStruct)⟩
  · rintro ⟨⟨entry, hMem, rfl⟩, hStruct⟩
    have hFalse := (hKind entry (hGraph entry hMem)).2 hStruct
    exact ⟨entry, List.mem_filter.2 ⟨hMem, by simp [hFalse]⟩, rfl⟩

/-- The type of an entry point is in dependency order, and a structure. -/
theorem root_entry (h : Compiled declarations request naming program) {point : EntryPoint}
    (hPoint : point ∈ program.entryPoints) :
    ∃ entry ∈ naming.graph.rootEntries, naming.entryPoint entry = .ok point ∧
      entry.isUnion = false ∧
      entry ∈ naming.graph.entriesOf (naming.graph.postOrder naming.graph.roots) := by
  obtain ⟨entry, hEntry, hMade⟩ := exists_left_of_mem h.entryPoints hPoint
  obtain ⟨id, hid, hGet⟩ := TypeGraph.mem_entriesOf.1 hEntry
  exact ⟨entry, hEntry, hMade, h.structs entry hEntry,
    (h.sound.enumeration_postOrder _).starts_mem id hid entry hGet⟩

theorem encoder_mem (h : Compiled declarations request naming program) {point : EntryPoint}
    (hPoint : point ∈ program.entryPoints) :
    ∃ encodes ∈ program.encodeFunctions, encodes.source = point.source ∧
      encodes.function = point.encoder := by
  obtain ⟨entry, _, hMade, hStruct, hOrder⟩ := h.root_entry hPoint
  obtain ⟨encodes, hEncodes, hFunction⟩ := h.exists_encode_function hOrder hStruct
  have hName := Naming.function_of_encodeFunction hFunction
  rw [(Naming.names_of_entryPoint hMade).1] at hName
  exact ⟨encodes, hEncodes,
    (Naming.encodeFunction_eq_ok hFunction).1.trans (Naming.entryPoint_eq_ok hMade).1.symm,
    (Except.ok.inj hName).symm⟩

theorem size_mem (h : Compiled declarations request naming program) {point : EntryPoint}
    (hPoint : point ∈ program.entryPoints) :
    point.SizedIn program (declarations.IsVarLen naming.index point.source) := by
  obtain ⟨entry, hRoot, hMade, _, hOrder⟩ := h.root_entry hPoint
  have hSource := (Naming.entryPoint_eq_ok hMade).1
  have hVarLen := h.sound.varLen_iff_isVarLen
    (TypeGraph.entriesOf_subset hOrder)
  rw [hSource, EntryPoint.SizedIn, ← hVarLen]
  obtain ⟨hMarked, name, hName, hSize⟩ | ⟨hFixed, hSize⟩ := (Naming.names_of_entryPoint hMade).2
  · rw [hSize]
    obtain ⟨sizes, hSizes⟩ := Option.isSome_iff_exists.1 (h.sizeFunction?_of_root hRoot hMarked)
    obtain ⟨hMem, hSame⟩ := (find?_name_eq_some h.nodup_size_sources).1 hSizes
    have hFunction := (h.size_function_names hMem).2
    rw [hSame, hName] at hFunction
    exact ⟨hMarked, sizes, hMem, hSame.trans hSource.symm, (Except.ok.inj hFunction).symm⟩
  · rw [hSize]
    simp [hFixed]

/-- **Coverage**: a compiled program has what the request is about. -/
theorem covers (h : Compiled declarations request naming program) :
    program.Covers declarations naming.index request where
  types_iff := h.types_iff
  encodeFunctions_iff := h.encodeFunctions_iff
  entryPoints_eq := by
    rw [map_eq_of_forall₂ (f := fun entry : TypeEntry => entry.name) h.entryPoints
      fun entry point hMade => (Naming.entryPoint_eq_ok hMade).1, h.sound.rootEntries_names]
  encoder_mem := fun _ hPoint => h.encoder_mem hPoint
  size_mem := fun _ hPoint => h.size_mem hPoint

/-- A root that was asked for has an entry point. -/
theorem entryPoint?_isSome (h : Compiled declarations request naming program) {root : String}
    (hRoot : root ∈ request.roots) : (program.entryPoint? root).isSome := by
  rw [Program.entryPoint?, find?_name_isSome, h.covers.entryPoints_eq]
  exact hRoot

end Compiled

/-- **Closed programs**: a program that compiles consists of what its request is about, and
whatever it refers to stands before the reference, under the same name. -/
theorem compiled_program_closed {index : DirectiveIndex} {settings : Settings}
    (hRequest : request.Built)
    (hCompile : compile declarations index settings request = .ok program) :
    program.CalleeFirst ∧ program.Covers declarations index request ∧
      (program.entryPoints.map EntryPoint.source).Nodup := by
  obtain ⟨naming, rfl, hCompiled⟩ := compiled_of_compile hCompile
  refine ⟨hCompiled.calleeFirst, hCompiled.covers, ?_⟩
  rw [hCompiled.covers.entryPoints_eq]
  exact hRequest.nodup_roots

end Compiled

namespace Sample

theorem built : request.Built :=
  .addRoot "chreTestBatch" (.forService "test")

/-- The items of a batch are among the types that its root contains. -/
theorem batch_program_closed :
    program.CalleeFirst ∧ program.Covers declarations index request ∧
      (program.entryPoints.map EntryPoint.source).Nodup ∧
      declarations.Contained request.roots "chreTestItem" := by
  obtain ⟨hFirst, hCovers, hNodup⟩ := compiled_program_closed built compiles
  have hItem : "chreTestItem" ∈ program.types.map PackedType.source := by decide +kernel
  exact ⟨hFirst, hCovers, hNodup, (hCovers.types_iff _).1 hItem⟩

end Sample

end WireSchema
