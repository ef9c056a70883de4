import WireSchema.Compile.Program
import WireSchema.Proofs.MemberLowering
import WireSchema.Proofs.TypeEnumeration

/-!
# What a compiled program consists of

`Compiled` takes a successful compile apart: the packed types, the encode functions and
the entry points belong one for one to types of a sound graph, and the size functions
are those that the search from the variable-length roots finds.

## Main results

* `compiled_forService`: the parts of a compile that succeeded.
* `Compiled.exists_order`, `Compiled.exists_size_order`: encode functions and size functions
  come after those of what their type contains.
* `Compiled.sizeFunction?_of_root`, `Compiled.sizeFunction?_of_callee`: the size functions
  begin at the roots and are complete under calls.
-/

namespace WireSchema

/-- The parts of a program, each with the part of the graph it was made from. -/
structure Compiled (declarations : Declarations) (request : Request) (naming : Naming)
    (program : Program) : Prop where
  sound : naming.graph.Sound declarations naming.index request.roots
  structs : ∀ entry ∈ naming.graph.rootEntries, entry.isUnion = false
  types : List.Forall₂ (fun entry type => naming.packedType entry = .ok type)
    (naming.graph.entriesOf naming.graph.declarationOrder) program.types
  encodeFunctions : List.Forall₂ (fun entry function => naming.encodeFunction entry = .ok function)
    ((naming.graph.entriesOf (naming.graph.postOrder naming.graph.roots)).filter
      fun entry => !entry.isUnion)
    program.encodeFunctions
  entryPoints : List.Forall₂ (fun entry point => naming.entryPoint entry = .ok point)
    naming.graph.rootEntries program.entryPoints
  sizeFunctions : naming.sizeFunctions = .ok program.sizeFunctions

variable {declarations : Declarations} {index : DirectiveIndex} {settings : Settings}
  {request : Request} {naming : Naming} {program : Program}

/-- **Parts of a program**: whatever compiles is made part for part from a sound graph, with
the names of its service. -/
theorem compiled_forService (h : compile declarations index settings request = .ok program) :
    ∃ graph, TypeGraph.build declarations index request.roots = .ok graph ∧
      Compiled declarations request (.forService graph index settings request.service) program := by
  obtain ⟨graph, hBuild, h⟩ := bind_eq_ok.1 h
  unfold programOf at h
  split at h
  · cases h
  · rename_i hRoots
    obtain ⟨types, hTypes, h⟩ := bind_eq_ok.1 h
    obtain ⟨sizeFunctions, hSizes, h⟩ := bind_eq_ok.1 h
    obtain ⟨encodeFunctions, hFunctions, h⟩ := bind_eq_ok.1 h
    obtain ⟨entryPoints, hPoints, h⟩ := bind_eq_ok.1 h
    obtain rfl := pure_eq_ok.1 h
    refine ⟨graph, hBuild, ?_⟩
    exact
      { sound := TypeGraph.sound_of_build hBuild
        structs := fun entry hEntry => by simpa using List.find?_eq_none.1 hRoots entry hEntry
        types := mapM_eq_ok.1 hTypes
        encodeFunctions := mapM_eq_ok.1 hFunctions
        entryPoints := mapM_eq_ok.1 hPoints
        sizeFunctions := hSizes }

theorem compiled_of_compile (h : compile declarations index settings request = .ok program) :
    ∃ naming : Naming, naming.index = index ∧ Compiled declarations request naming program := by
  obtain ⟨graph, _, hCompiled⟩ := compiled_forService h
  exact ⟨_, rfl, hCompiled⟩

/-! ## Single parts -/

theorem Naming.packedType_eq_ok {entry : TypeEntry} {type : PackedType}
    (h : naming.packedType entry = .ok type) :
    type.source = entry.name ∧ type.kind = entry.kind ∧
      List.Forall₂ (fun member packed => naming.packedMember member = .ok packed)
        entry.members type.members := by
  obtain ⟨target, _, h⟩ := bind_eq_ok.1 h
  obtain ⟨members, hMembers, h⟩ := bind_eq_ok.1 h
  obtain rfl := pure_eq_ok.1 h
  exact ⟨rfl, rfl, mapM_eq_ok.1 hMembers⟩

theorem Naming.encodeFunction_eq_ok {entry : TypeEntry} {function : EncodeFunction}
    (h : naming.encodeFunction entry = .ok function) :
    function.source = entry.name ∧ function.varLen = entry.varLen ∧
      List.Forall₂ (fun member step => naming.step entry.toOutline member = .ok step)
        entry.members function.steps := by
  obtain ⟨target, _, h⟩ := bind_eq_ok.1 h
  obtain ⟨name, _, h⟩ := bind_eq_ok.1 h
  obtain ⟨steps, hSteps, h⟩ := bind_eq_ok.1 h
  obtain rfl := pure_eq_ok.1 h
  exact ⟨rfl, rfl, mapM_eq_ok.1 hSteps⟩

/-- An entry point allocates what the size function says for a variable-length type, and the
size of the packed type for any other. -/
theorem Naming.entryPoint_cases {entry : TypeEntry} {point : EntryPoint}
    (h : naming.entryPoint entry = .ok point) :
    (point.source = entry.name ∧ point.varLen = entry.varLen) ∧
      naming.functionName .allocate entry.name = .ok point.function ∧
      naming.functionName .convert entry.name = .ok point.encoder ∧
      ((entry.varLen = true ∧ ∃ name, naming.functionName .sizeOf entry.name = .ok name ∧
          point.size = .dynamic name) ∨
        (entry.varLen = false ∧ point.size = .static)) := by
  unfold Naming.entryPoint at h
  dsimp only at h
  split at h
  · rename_i hVarLen
    obtain ⟨size, hSize, h⟩ := bind_eq_ok.1 h
    obtain ⟨target, _, h⟩ := bind_eq_ok.1 h
    obtain ⟨function, hFunction, h⟩ := bind_eq_ok.1 h
    obtain ⟨encoder, hEncoder, h⟩ := bind_eq_ok.1 h
    obtain rfl := pure_eq_ok.1 h
    obtain ⟨name, hName, rfl⟩ := map_eq_ok.1 hSize
    exact ⟨⟨rfl, rfl⟩, hFunction, hEncoder, .inl ⟨hVarLen, name, hName, rfl⟩⟩
  · rename_i hFixed
    obtain ⟨size, hSize, h⟩ := bind_eq_ok.1 h
    obtain ⟨target, _, h⟩ := bind_eq_ok.1 h
    obtain ⟨function, hFunction, h⟩ := bind_eq_ok.1 h
    obtain ⟨encoder, hEncoder, h⟩ := bind_eq_ok.1 h
    obtain rfl := pure_eq_ok.1 h
    obtain rfl := pure_eq_ok.1 hSize
    exact ⟨⟨rfl, rfl⟩, hFunction, hEncoder, .inr ⟨by simpa using hFixed, rfl⟩⟩

theorem Naming.entryPoint_eq_ok {entry : TypeEntry} {point : EntryPoint}
    (h : naming.entryPoint entry = .ok point) :
    point.source = entry.name ∧ point.varLen = entry.varLen ∧
      (point.size = .static ↔ entry.varLen = false) := by
  obtain ⟨⟨hSource, hSame⟩, _, _, ⟨hVarLen, name, _, hSize⟩ | ⟨hFixed, hSize⟩⟩ :=
    Naming.entryPoint_cases h
  · exact ⟨hSource, hSame, by simp [hSize, hVarLen]⟩
  · exact ⟨hSource, hSame, by simp [hSize, hFixed]⟩

theorem Naming.sizeFunction_eq_ok {source : String} {terms : List SizeTerm}
    {function : SizeFunction} (h : naming.sizeFunction source terms = .ok function) :
    function.source = source ∧ function.terms = terms := by
  obtain ⟨target, _, h⟩ := bind_eq_ok.1 h
  obtain ⟨name, _, h⟩ := bind_eq_ok.1 h
  obtain ⟨parameter, _, h⟩ := bind_eq_ok.1 h
  obtain rfl := pure_eq_ok.1 h
  exact ⟨rfl, rfl⟩

/-- The terms of a type are what its members add, in order. -/
theorem Naming.sizeTerms_eq_ok {owner : Outline} {terms : List SizeTerm}
    (h : naming.sizeTerms owner = .ok terms) :
    ∃ parts, List.Forall₂ (fun member part => naming.sizeTerm? owner member = .ok part)
      owner.members parts ∧ terms = parts.filterMap id := by
  obtain ⟨parts, hParts, h⟩ := bind_eq_ok.1 h
  exact ⟨parts, mapM_eq_ok.1 hParts, (pure_eq_ok.1 h).symm⟩

/-- Every term has been made for a member of the type. -/
theorem Naming.exists_counted_member {owner : Outline} {terms : List SizeTerm}
    (h : naming.sizeTerms owner = .ok terms) {term : SizeTerm} (hTerm : term ∈ terms) :
    ∃ member ∈ owner.members, naming.sizeTerm? owner member = .ok (some term) := by
  obtain ⟨parts, hParts, rfl⟩ := Naming.sizeTerms_eq_ok h
  obtain ⟨part, hPart, rfl⟩ := List.mem_filterMap.1 hTerm
  exact exists_left_of_mem hParts hPart

namespace Compiled

/-! ## Types and encode functions -/

theorem nodup_type_sources (h : Compiled declarations request naming program) :
    (program.types.map PackedType.source).Nodup := by
  rw [map_eq_of_forall₂ (f := fun entry : TypeEntry => entry.name) h.types
    fun entry type hType => (Naming.packedType_eq_ok hType).1]
  exact (h.sound.enumeration_postOrder _).nodup_names

theorem nodup_encode_sources (h : Compiled declarations request naming program) :
    (program.encodeFunctions.map EncodeFunction.source).Nodup := by
  rw [map_eq_of_forall₂ (f := fun entry : TypeEntry => entry.name) h.encodeFunctions
    fun entry function hFunction => (Naming.encodeFunction_eq_ok hFunction).1]
  exact (List.filter_sublist.map _).nodup (h.sound.enumeration_postOrder _).nodup_names

theorem type?_eq_some (h : Compiled declarations request naming program) {source : String}
    {type : PackedType} :
    program.type? source = some type ↔ type ∈ program.types ∧ type.source = source :=
  find?_name_eq_some h.nodup_type_sources

theorem encodeFunction?_eq_some (h : Compiled declarations request naming program)
    {source : String} {function : EncodeFunction} :
    program.encodeFunction? source = some function ↔
      function ∈ program.encodeFunctions ∧ function.source = source :=
  find?_name_eq_some h.nodup_encode_sources

/-- Every type that the roots contain is packed. -/
theorem exists_type (h : Compiled declarations request naming program) {entry : TypeEntry}
    (hEntry : entry ∈ naming.graph.entriesOf (naming.graph.postOrder naming.graph.roots)) :
    ∃ type ∈ program.types, naming.packedType entry = .ok type :=
  exists_right_of_mem h.types ((h.sound.mem_declarationOrder_iff entry).2 hEntry)

/-- Every structure that the roots contain has an encode function. -/
theorem exists_encode_function (h : Compiled declarations request naming program)
    {entry : TypeEntry}
    (hEntry : entry ∈ naming.graph.entriesOf (naming.graph.postOrder naming.graph.roots))
    (hStruct : entry.isUnion = false) :
    ∃ function ∈ program.encodeFunctions, naming.encodeFunction entry = .ok function :=
  exists_right_of_mem h.encodeFunctions (List.mem_filter.2 ⟨hEntry, by simpa using hStruct⟩)

/-- Every encode function is that of a structure of the graph. -/
theorem exists_entry (h : Compiled declarations request naming program)
    {function : EncodeFunction} (hFunction : function ∈ program.encodeFunctions) :
    ∃ entry ∈ naming.graph.entries, naming.encodeFunction entry = .ok function := by
  obtain ⟨entry, hEntry, hMade⟩ := exists_left_of_mem h.encodeFunctions hFunction
  have hOrder := (List.mem_filter.1 hEntry).1
  exact ⟨entry, TypeGraph.entriesOf_subset hOrder, hMade⟩

/-- Every step has been made for a member of the structure. -/
theorem exists_stepped_member (h : Compiled declarations request naming program)
    {function : EncodeFunction} (hFunction : function ∈ program.encodeFunctions) {step : Step}
    (hStep : step ∈ function.steps) :
    ∃ entry ∈ naming.graph.entries, function.source = entry.name ∧
      function.varLen = entry.varLen ∧
      ∃ member ∈ entry.members, naming.step entry.toOutline member = .ok step := by
  obtain ⟨entry, hEntry, hMade⟩ := h.exists_entry hFunction
  obtain ⟨hSource, hVarLen, hSteps⟩ := Naming.encodeFunction_eq_ok hMade
  exact ⟨entry, hEntry, hSource, hVarLen, exists_left_of_mem hSteps hStep⟩

/-- The order of encode functions: what comes before a function has been made from the
structures that come before its own. -/
theorem exists_order (h : Compiled declarations request naming program)
    {before after : List EncodeFunction} {function : EncodeFunction}
    (hSplit : program.encodeFunctions = before ++ function :: after) :
    ∃ lead entry tail,
      naming.graph.entriesOf (naming.graph.postOrder naming.graph.roots) = lead ++ entry :: tail ∧
        entry.isUnion = false ∧ naming.encodeFunction entry = .ok function ∧
        ∀ other ∈ lead, other.isUnion = false →
          ∃ callee ∈ before, naming.encodeFunction other = .ok callee := by
  have hAll := h.encodeFunctions
  rw [hSplit] at hAll
  obtain ⟨structs, rest, hOrder, hStructs, hRest⟩ := exists_append_of_forall₂ hAll
  obtain ⟨entry, others, hEntry, _, rfl⟩ := List.forall₂_cons_right_iff.1 hRest
  obtain ⟨lead, back, hLead, rfl, hBack⟩ := List.filter_eq_append_iff.1 hOrder
  obtain ⟨unions, tail, rfl, hUnions, hStruct, _⟩ := List.filter_eq_cons_iff.1 hBack
  refine ⟨lead ++ unions, entry, tail, by rw [hLead, List.append_assoc], by simpa using hStruct,
    hEntry, fun other hOther hKind => ?_⟩
  rcases List.mem_append.1 hOther with hOther | hOther
  · exact exists_right_of_mem hStructs (List.mem_filter.2 ⟨hOther, by simpa using hKind⟩)
  · exact absurd (by simpa using hKind) (hUnions other hOther)

/-- A structure that comes before another is encoded by an earlier function. -/
theorem encodeFunction?_of_order (h : Compiled declarations request naming program)
    {before after : List EncodeFunction} {function callee : EncodeFunction} {source : String}
    (hSplit : program.encodeFunctions = before ++ function :: after) (hCallee : callee ∈ before)
    (hSource : callee.source = source) : program.encodeFunction? source = some callee :=
  h.encodeFunction?_eq_some.2 ⟨hSplit ▸ List.mem_append_left _ hCallee, hSource⟩

/-! ## Size functions -/

theorem sizeTermsOf_of_visit {source : String} {terms : List SizeTerm} {next : List String}
    (h : naming.sizeSearch.visit source = .ok (terms, next)) :
    naming.sizeTermsOf source = .ok terms ∧ next = terms.filterMap Naming.callee? := by
  unfold Naming.sizeSearch at h
  dsimp only at h
  split at h
  · rename_i found hFound
    cases h
    exact ⟨hFound, rfl⟩
  · cases h

/-- The terms of a type that is in the graph. -/
theorem sizeTermsOf_eq_ok (h : Compiled declarations request naming program) {source : String}
    {terms : List SizeTerm} (hTerms : naming.sizeTermsOf source = .ok terms) :
    ∃ entry ∈ naming.graph.entries, entry.name = source ∧
      naming.sizeTerms entry.toOutline = .ok terms := by
  obtain ⟨entry, hEntry, hTerms⟩ := bind_eq_ok.1 hTerms
  obtain ⟨hMem, hName⟩ := h.sound.find?_eq_some.1 (Naming.entry_eq_ok.1 hEntry)
  exact ⟨entry, hMem, hName, hTerms⟩

/-- A type calls the size functions of types nested in it. -/
theorem nested_of_callee (h : Compiled declarations request naming program) {entry : TypeEntry}
    {terms : List SizeTerm} (hTerms : naming.sizeTerms entry.toOutline = .ok terms)
    {source : String} (hSource : source ∈ terms.filterMap Naming.callee?) :
    ∃ nested ∈ naming.graph.entries, nested.name = source ∧ source ∈ entry.nestedNames := by
  obtain ⟨term, hTerm, hCallee⟩ := List.mem_filterMap.1 hSource
  obtain ⟨member, hMember, hAdds⟩ := Naming.exists_counted_member hTerms hTerm
  rcases Naming.sizeTerm?_eq_ok hAdds with
    ⟨_, hNone⟩ | ⟨_, _, _, _, _, _, hSome⟩ | ⟨nested, _, _, _, _, hNested, _, _, _, hSome⟩
  · cases hNone
  · cases hSome
    cases hCallee
  · cases hSome
    cases hCallee
    obtain ⟨name, hName, hFind⟩ := Option.bind_eq_some_iff.1 hNested
    obtain ⟨hMem, rfl⟩ := h.sound.find?_eq_some.1 hFind
    exact ⟨nested, hMem, rfl, List.mem_filterMap.2 ⟨member, hMember, hName⟩⟩

/-- Whatever the search for size functions finds is among the types that the roots contain. -/
private theorem exists_entry_of_found (h : Compiled declarations request naming program)
    {found : List (String × List SizeTerm)}
    (hFound : naming.sizeSearch.run ((naming.graph.rootEntries.filter TypeEntry.varLen).map
      fun entry => entry.name) = .ok found) {source : String}
    (hSource : source ∈ Worklist.names found) :
    ∃ entry ∈ naming.graph.entriesOf (naming.graph.postOrder naming.graph.roots),
      entry.name = source := by
  let included : String → Prop := fun name => ∃ entry ∈ naming.graph.entriesOf
    (naming.graph.postOrder naming.graph.roots), entry.name = name
  have hEnum := h.sound.enumeration_postOrder naming.graph.roots
  have hClosed : naming.sizeSearch.Closed included := by
    rintro _ terms next ⟨entry, hEntry, rfl⟩ hVisit n hn
    obtain ⟨hTerms, rfl⟩ := sizeTermsOf_of_visit hVisit
    obtain ⟨same, hSame, hName, hAdded⟩ := h.sizeTermsOf_eq_ok hTerms
    obtain rfl := h.sound.eq_of_name_eq hSame (hEnum.mem_entries _ hEntry) hName
    obtain ⟨nested, hNested, rfl, hMem⟩ := h.nested_of_callee hAdded hn
    exact ⟨nested, hEnum.nested_mem hEntry hNested hMem, rfl⟩
  refine Worklist.run_only hFound hClosed (fun name hName => ?_) source hSource
  obtain ⟨entry, hEntry, rfl⟩ := List.mem_map.1 hName
  obtain ⟨id, hid, hGet⟩ := TypeGraph.mem_entriesOf.1 (List.mem_of_mem_filter hEntry)
  exact ⟨entry, hEnum.starts_mem id hid entry hGet, rfl⟩

/-- What the search for size functions finds, and that each find becomes a function. -/
private theorem size_search (h : Compiled declarations request naming program) :
    ∃ found, naming.sizeSearch.run ((naming.graph.rootEntries.filter TypeEntry.varLen).map
        fun entry => entry.name) = .ok found ∧
      (∀ function ∈ program.sizeFunctions, (function.source, function.terms) ∈ found) ∧
      ∀ source ∈ Worklist.names found, (program.sizeFunction? source).isSome := by
  obtain ⟨found, hFound, hNeeded⟩ := bind_eq_ok.1 h.sizeFunctions
  have hMade := mapM_eq_ok.1 hNeeded
  refine ⟨found, hFound, fun function hFunction => ?_, fun source hSource => ?_⟩
  · obtain ⟨pair, hPair, hFunction⟩ := exists_left_of_mem hMade hFunction
    obtain ⟨entry, _, hLookup⟩ := List.mem_filterMap.1 hPair
    obtain ⟨terms, hTerms, rfl⟩ := Option.map_eq_some_iff.1 hLookup
    obtain ⟨hSource, hTermsEq⟩ := Naming.sizeFunction_eq_ok hFunction
    rw [hSource, hTermsEq]
    obtain ⟨front, back, rfl, _⟩ := List.lookup_eq_some_iff.1 hTerms
    simp
  · obtain ⟨entry, hEntry, rfl⟩ := h.exists_entry_of_found hFound hSource
    obtain ⟨pair, hPair, hName⟩ := List.mem_map.1 hSource
    obtain ⟨terms, hTerms⟩ := Option.isSome_iff_exists.1 (List.lookup_isSome_iff.2
      ⟨pair, hPair, beq_iff_eq.2 hName.symm⟩)
    have hPair : (entry.name, terms) ∈ (naming.graph.entriesOf
        (naming.graph.postOrder naming.graph.roots)).filterMap fun entry =>
          (found.lookup entry.name).map fun terms => (entry.name, terms) :=
      List.mem_filterMap.2 ⟨entry, hEntry, by rw [hTerms]; rfl⟩
    obtain ⟨function, hFunction, hSizeFunction⟩ := exists_right_of_mem hMade hPair
    rw [Program.sizeFunction?, find?_name_isSome]
    exact List.mem_map.2 ⟨function, hFunction, (Naming.sizeFunction_eq_ok hSizeFunction).1⟩

/-- A size function adds up the terms of its type. -/
theorem sizeTerms_of_mem (h : Compiled declarations request naming program)
    {function : SizeFunction} (hFunction : function ∈ program.sizeFunctions) :
    ∃ entry ∈ naming.graph.entries, entry.name = function.source ∧
      naming.sizeTerms entry.toOutline = .ok function.terms := by
  obtain ⟨found, hFound, hMade, _⟩ := h.size_search
  obtain ⟨next, hVisit, _⟩ := Worklist.run_visited hFound (hMade function hFunction)
  exact h.sizeTermsOf_eq_ok (sizeTermsOf_of_visit hVisit).1

/-- The size function of a type adds up its terms. -/
theorem sizeTerms_of_source (h : Compiled declarations request naming program) {entry : TypeEntry}
    (hEntry : entry ∈ naming.graph.entries) {function : SizeFunction}
    (hFunction : function ∈ program.sizeFunctions) (hSource : function.source = entry.name) :
    naming.sizeTerms entry.toOutline = .ok function.terms := by
  obtain ⟨same, hSame, hName, hTerms⟩ := h.sizeTerms_of_mem hFunction
  obtain rfl := h.sound.eq_of_name_eq hSame hEntry (hName.trans hSource)
  exact hTerms

theorem sizeTerms_of_sizeFunction? (h : Compiled declarations request naming program)
    {entry : TypeEntry} (hEntry : entry ∈ naming.graph.entries) {function : SizeFunction}
    (hFind : program.sizeFunction? entry.name = some function) :
    naming.sizeTerms entry.toOutline = .ok function.terms := by
  have hName := List.find?_some hFind
  exact h.sizeTerms_of_source hEntry (List.mem_of_find?_eq_some hFind) (eq_of_beq hName)

/-- A size function calls only size functions that exist. -/
theorem sizeFunction?_of_callee (h : Compiled declarations request naming program)
    {function : SizeFunction} (hFunction : function ∈ program.sizeFunctions) {source : String}
    (hSource : source ∈ function.terms.filterMap Naming.callee?) :
    (program.sizeFunction? source).isSome := by
  obtain ⟨found, hFound, hMade, hExists⟩ := h.size_search
  obtain ⟨next, hVisit, hNext⟩ := Worklist.run_visited hFound (hMade function hFunction)
  obtain ⟨_, rfl⟩ := sizeTermsOf_of_visit hVisit
  exact hExists source (hNext source hSource)

/-- A variable-length root has a size function. -/
theorem sizeFunction?_of_root (h : Compiled declarations request naming program)
    {entry : TypeEntry} (hEntry : entry ∈ naming.graph.rootEntries)
    (hVarLen : entry.varLen = true) : (program.sizeFunction? entry.name).isSome := by
  obtain ⟨found, hFound, _, hExists⟩ := h.size_search
  refine hExists entry.name (Worklist.run_starts hFound entry.name ?_)
  exact List.mem_map.2 ⟨entry, List.mem_filter.2 ⟨hEntry, hVarLen⟩, rfl⟩

/-- The order of size functions: what comes before one has been made for the types that come
before its own and need one. -/
theorem exists_size_order (h : Compiled declarations request naming program)
    {before after : List SizeFunction} {sizes : SizeFunction}
    (hSplit : program.sizeFunctions = before ++ sizes :: after) :
    ∃ lead entry tail,
      naming.graph.entriesOf (naming.graph.postOrder naming.graph.roots) = lead ++ entry :: tail ∧
        entry.name = sizes.source ∧ naming.sizeTerms entry.toOutline = .ok sizes.terms ∧
        ∀ other ∈ lead, (program.sizeFunction? other.name).isSome →
          ∃ callee ∈ before, callee.source = other.name := by
  obtain ⟨found, hFound, hNeeded⟩ := bind_eq_ok.1 h.sizeFunctions
  have hMade := mapM_eq_ok.1 hNeeded
  -- Every size function, wherever it stands, is for a type that the search has found.
  have hLookup : ∀ source, (program.sizeFunction? source).isSome →
      ∃ terms, found.lookup source = some terms := by
    intro source hSome
    rw [Program.sizeFunction?, find?_name_isSome] at hSome
    obtain ⟨function, hFunction, rfl⟩ := List.mem_map.1 hSome
    obtain ⟨pair, hPair, hFunction⟩ := exists_left_of_mem hMade hFunction
    obtain ⟨entry, _, hFind⟩ := List.mem_filterMap.1 hPair
    obtain ⟨terms, hTerms, rfl⟩ := Option.map_eq_some_iff.1 hFind
    rw [(Naming.sizeFunction_eq_ok hFunction).1]
    exact ⟨terms, hTerms⟩
  rw [hSplit] at hMade
  obtain ⟨front, back, hPairs, hFront, hBack⟩ := exists_append_of_forall₂ hMade
  obtain ⟨pair, others, hPair, _, rfl⟩ := List.forall₂_cons_right_iff.1 hBack
  obtain ⟨lead, rest, hOrder, rfl, hRest⟩ := List.filterMap_eq_append_iff.1 hPairs
  obtain ⟨skipped, entry, tail, rfl, hSkipped, hEntry, _⟩ := List.filterMap_eq_cons_iff.1 hRest
  obtain ⟨terms, hTerms, rfl⟩ := Option.map_eq_some_iff.1 hEntry
  obtain ⟨hSource, hSame⟩ := Naming.sizeFunction_eq_ok hPair
  refine ⟨lead ++ skipped, entry, tail, by rw [hOrder, List.append_assoc], hSource.symm, ?_, ?_⟩
  · have hEntry : entry ∈ naming.graph.entriesOf (naming.graph.postOrder naming.graph.roots) := by
      rw [hOrder]
      simp
    exact h.sizeTerms_of_source (TypeGraph.entriesOf_subset hEntry) (by simp [hSplit]) hSource
  · intro other hOther hSome
    obtain ⟨theirs, hTheirs⟩ := hLookup other.name hSome
    rcases List.mem_append.1 hOther with hOther | hOther
    · obtain ⟨callee, hCallee, hCalled⟩ := exists_right_of_mem hFront
        (List.mem_filterMap.2 ⟨other, hOther, by rw [hTheirs]; rfl⟩)
      exact ⟨callee, hCallee, (Naming.sizeFunction_eq_ok hCalled).1⟩
    · have hNone := hSkipped other hOther
      rw [hTheirs] at hNone
      cases hNone

end Compiled

end WireSchema
