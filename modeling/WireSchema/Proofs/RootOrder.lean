import WireSchema.Proofs.LocalFormat
import WireSchema.Proofs.RearrangedGraphs

/-!
# The order of the roots

A request lists its roots in some order, and everything in a compile happens in an order that
goes back to it: types are discovered and numbered from the last root on, functions are made
in the order of a search from the first, and size functions are found by a search of their
own.  Each of these can stop the compile, and at another place for another order.

Even so, whether a request compiles does not depend on the order of its roots, and neither do
the packed types.  The functions are the same ones in another order, and the entry points
stand in the order of the roots.

## Main results

* `Compiled.exists_rearranged`: the program for the roots in another order.
* `program_of_reordered_roots`: requests with the same roots.
-/

namespace WireSchema

/-! ## Programs -/

/-- A program is put together from its parts. -/
theorem programOf_eq_ok {graph : TypeGraph} {index : DirectiveIndex} {settings : Settings}
    {request : Request} {types : List PackedType} {sizeFunctions : List SizeFunction}
    {encodeFunctions : List EncodeFunction} {entryPoints : List EntryPoint}
    (hRoots : ∀ entry ∈ graph.rootEntries, entry.isUnion = false)
    (hTypes : (Naming.forService graph index settings request.service).packedTypes = .ok types)
    (hSizes : (Naming.forService graph index settings request.service).sizeFunctions =
      .ok sizeFunctions)
    (hFunctions : (Naming.forService graph index settings request.service).encodeFunctions =
      .ok encodeFunctions)
    (hPoints : graph.rootEntries.mapM
      (Naming.forService graph index settings request.service).entryPoint = .ok entryPoints) :
    programOf graph index settings request =
      .ok ⟨request.service, request.includes, request.roots, types, sizeFunctions,
        encodeFunctions, entryPoints⟩ := by
  unfold programOf
  rw [List.find?_eq_none.2 fun entry hEntry => by simp [hRoots entry hEntry]]
  exact bind_eq_ok.2 ⟨types, hTypes, bind_eq_ok.2 ⟨sizeFunctions, hSizes,
    bind_eq_ok.2 ⟨encodeFunctions, hFunctions, bind_eq_ok.2 ⟨entryPoints, hPoints, rfl⟩⟩⟩⟩

/-- Two programs for the same roots: the same types, the same functions in some order, and the
entry point of each root in its place. -/
structure Program.Rearranges (program other : Program) : Prop where
  types : other.types = program.types
  sizeFunctions : other.sizeFunctions.Perm program.sizeFunctions
  encodeFunctions : other.encodeFunctions.Perm program.encodeFunctions
  entryPoints : ∃ point : String → EntryPoint,
    program.entryPoints = program.roots.map point ∧ other.entryPoints = other.roots.map point

/-- The entry point of the root of the given name. -/
def Naming.entryPointOf (naming : Naming) (source : String) : Except CompileError EntryPoint :=
  naming.entry source >>= naming.entryPoint

namespace TypeGraph.Sound

variable {declarations : Declarations} {index : DirectiveIndex} {roots : List String}
  {graph : TypeGraph}

/-- The root types are what the graph has under the names of the roots. -/
theorem forall₂_rootEntries (h : graph.Sound declarations index roots) :
    List.Forall₂ (fun entry root => graph.find? root = some entry) graph.rootEntries roots := by
  have hNames := h.rootEntries_names
  have hMem : ∀ entry ∈ graph.rootEntries, graph.find? entry.name = some entry := by
    intro entry hEntry
    obtain ⟨id, _, hGet⟩ := mem_entriesOf.1 hEntry
    exact h.find?_eq_some.2 ⟨mem_entries_iff.2 ⟨id, hGet⟩, rfl⟩
  rw [← hNames, List.forall₂_map_right_iff, List.forall₂_same]
  exact hMem

theorem mem_rootEntries_iff (h : graph.Sound declarations index roots) {entry : TypeEntry} :
    entry ∈ graph.rootEntries ↔ entry ∈ graph.entries ∧ entry.name ∈ roots := by
  constructor
  · intro hEntry
    obtain ⟨root, hRoot, hFind⟩ := exists_right_of_mem h.forall₂_rootEntries hEntry
    obtain ⟨hMem, rfl⟩ := h.find?_eq_some.1 hFind
    exact ⟨hMem, hRoot⟩
  · rintro ⟨hMem, hRoot⟩
    obtain ⟨same, hSame, hFind⟩ := exists_left_of_mem h.forall₂_rootEntries hRoot
    rw [h.find?_eq_some.2 ⟨hMem, rfl⟩] at hFind
    exact Option.some.inj hFind ▸ hSame

/-- The entry points are made root by root. -/
theorem mapM_entryPoint {naming : Naming} (h : naming.graph.Sound declarations index roots) :
    naming.graph.rootEntries.mapM naming.entryPoint = roots.mapM naming.entryPointOf := by
  refine mapM_congr_of_forall₂ (h.forall₂_rootEntries.imp fun entry root hFind => ?_)
  unfold Naming.entryPointOf
  rw [Naming.entry_eq_ok.2 hFind]
  rfl

end TypeGraph.Sound

namespace Compiled

variable {declarations : Declarations} {request : Request} {naming : Naming} {program : Program}
  {roots others : List String} {other : TypeGraph}

/-! ## Parts of the other program -/

section Parts

variable (hBuild : TypeGraph.build declarations naming.index roots = .ok naming.graph)
  (hOther : TypeGraph.build declarations naming.index others = .ok other)
  (hRoots : ∀ name, name ∈ roots ↔ name ∈ others)

include hBuild hOther hRoots

theorem onGraph_alike : naming.Alike (naming.onGraph other) :=
  Naming.alike_onGraph (TypeGraph.alike_of_build hBuild hOther hRoots)

theorem packedTypes_onGraph : (naming.onGraph other).packedTypes = naming.packedTypes := by
  have hAlike := onGraph_alike hBuild hOther hRoots
  refine (mapM_congr_of_forall₂ ?_).symm
  exact (TypeGraph.declarationOrder_alike hBuild hOther hRoots).imp fun entry twin hSame =>
    (hAlike.packedType_eq hSame).symm

theorem exists_encodeFunctions_onGraph {made : List EncodeFunction}
    (h : naming.encodeFunctions = .ok made) :
    ∃ functions, (naming.onGraph other).encodeFunctions = .ok functions ∧ functions.Perm made := by
  have hAlike := onGraph_alike hBuild hOther hRoots
  obtain ⟨rearranged, hPerm, hSame⟩ := TypeGraph.postOrder_alike hBuild hOther hRoots
  obtain ⟨functions, hMade, hFunctions⟩ :=
    exists_mapM_of_perm (hPerm.filter fun entry : TypeEntry => !entry.isUnion) h
  refine ⟨functions, ?_, hFunctions⟩
  rw [← hMade]
  refine (mapM_congr_of_forall₂ ?_).symm
  have hStructs : List.Forall₂ TypeEntry.Alike (rearranged.filter fun entry => !entry.isUnion)
      ((other.entriesOf (other.postOrder other.roots)).filter fun entry => !entry.isUnion) :=
    List.rel_filter (fun entry twin hSame => by simp [hSame.isUnion]) hSame
  exact hStructs.imp fun entry twin hSame => (hAlike.encodeFunction_eq hSame).symm

/-- The searches for size functions begin with the same names. -/
theorem mem_varLen_roots_onGraph (name : String) :
    name ∈ (naming.graph.rootEntries.filter TypeEntry.varLen).map (fun entry => entry.name) ↔
      name ∈ (other.rootEntries.filter TypeEntry.varLen).map fun entry => entry.name := by
  have hForward : ∀ {graph twin : TypeGraph} {roots others : List String},
      TypeGraph.build declarations naming.index roots = .ok graph →
      TypeGraph.build declarations naming.index others = .ok twin →
      (∀ name, name ∈ roots ↔ name ∈ others) →
      name ∈ (graph.rootEntries.filter TypeEntry.varLen).map (fun entry => entry.name) →
      name ∈ (twin.rootEntries.filter TypeEntry.varLen).map fun entry => entry.name := by
    intro graph twin roots others hBuild hOther hRoots hName
    obtain ⟨entry, hEntry, rfl⟩ := List.mem_map.1 hName
    obtain ⟨hRoot, hVarLen⟩ := List.mem_filter.1 hEntry
    obtain ⟨hMem, hListed⟩ := (TypeGraph.sound_of_build hBuild).mem_rootEntries_iff.1 hRoot
    obtain ⟨same, hSame, hAlike⟩ := TypeGraph.exists_alike_of_build hBuild hOther hRoots hMem
    rw [hAlike.name] at hListed ⊢
    refine List.mem_map.2 ⟨same, List.mem_filter.2 ⟨?_, hAlike.varLen ▸ hVarLen⟩, rfl⟩
    exact (TypeGraph.sound_of_build hOther).mem_rootEntries_iff.2 ⟨hSame, (hRoots _).1 hListed⟩
  exact ⟨hForward hBuild hOther hRoots, hForward hOther hBuild fun name => (hRoots name).symm⟩

theorem exists_sizeFunctions_onGraph {made : List SizeFunction}
    (h : naming.sizeFunctions = .ok made) :
    ∃ functions, (naming.onGraph other).sizeFunctions = .ok functions ∧ functions.Perm made := by
  have hAlike := onGraph_alike hBuild hOther hRoots
  obtain ⟨found, hFound, h⟩ := bind_eq_ok.1 h
  obtain ⟨twinFound, hTwinFound, hLookup⟩ := Worklist.exists_run_of_starts
    hAlike.sizeSearch_visit_eq (mem_varLen_roots_onGraph hBuild hOther hRoots) hFound
  obtain ⟨rearranged, hPerm, hSame⟩ := TypeGraph.postOrder_alike hBuild hOther hRoots
  obtain ⟨functions, hMade, hFunctions⟩ := exists_mapM_of_perm (hPerm.filterMap fun entry =>
    (found.lookup entry.name).map fun terms => (entry.name, terms)) h
  refine ⟨functions, bind_eq_ok.2 ⟨twinFound, hTwinFound, ?_⟩, hFunctions⟩
  -- What is needed has the same names in the other order, and the same terms.
  have hNeeded : (other.entriesOf (other.postOrder other.roots)).filterMap (fun entry =>
        (twinFound.lookup entry.name).map fun terms => (entry.name, terms)) =
      rearranged.filterMap fun entry =>
        (found.lookup entry.name).map fun terms => (entry.name, terms) :=
    filterMap_eq_of_forall₂ hSame fun entry twin hAlike => by rw [hLookup, hAlike.name]
  rw [← hMade]
  show List.mapM _ (List.filterMap _ (other.entriesOf (other.postOrder other.roots))) = _
  rw [hNeeded]
  refine mapM_congr_of_forall₂ (List.forall₂_same.2 fun pair _ => ?_)
  exact hAlike.sizeFunction_eq pair.1 pair.2

theorem entryPointOf_onGraph (source : String) :
    (naming.onGraph other).entryPointOf source = naming.entryPointOf source := by
  have hAlike := onGraph_alike hBuild hOther hRoots
  refine ((hAlike.entry_outcome source).bind_eq fun entry twin _ _ hSame => ?_).symm
  exact (hAlike.entryPoint_eq hSame).symm

theorem exists_entryPoints_onGraph {points : List EntryPoint}
    (h : naming.graph.rootEntries.mapM naming.entryPoint = .ok points) :
    ∃ point : String → EntryPoint, points = roots.map point ∧
      other.rootEntries.mapM (naming.onGraph other).entryPoint = .ok (others.map point) := by
  have hSound := TypeGraph.sound_of_build hBuild
  have hOtherSound : (naming.onGraph other).graph.Sound declarations naming.index others :=
    TypeGraph.sound_of_build hOther
  rw [hSound.mapM_entryPoint] at h
  refine ⟨fun source => (naming.entryPointOf source).toOption.getD default, eq_map_of_mapM h, ?_⟩
  show (naming.onGraph other).graph.rootEntries.mapM (naming.onGraph other).entryPoint = _
  rw [hOtherSound.mapM_entryPoint, mapM_eq_ok, List.forall₂_map_right_iff, List.forall₂_same]
  intro source hSource
  obtain ⟨point, _, hPoint⟩ := exists_right_of_mem (mapM_eq_ok.1 h) ((hRoots source).2 hSource)
  rw [entryPointOf_onGraph hBuild hOther hRoots, hPoint]
  rfl

end Parts

/-- What the other program is put together from. -/
theorem exists_parts_onGraph (h : Compiled declarations request naming program)
    (hBuild : TypeGraph.build declarations naming.index request.roots = .ok naming.graph)
    (hOther : TypeGraph.build declarations naming.index others = .ok other)
    (hRoots : ∀ name, name ∈ request.roots ↔ name ∈ others) :
    ∃ sizes functions point,
      (∀ twin ∈ other.rootEntries, twin.isUnion = false) ∧
      (naming.onGraph other).packedTypes = .ok program.types ∧
      (naming.onGraph other).sizeFunctions = .ok sizes ∧ sizes.Perm program.sizeFunctions ∧
      (naming.onGraph other).encodeFunctions = .ok functions ∧
      functions.Perm program.encodeFunctions ∧
      program.entryPoints = request.roots.map point ∧
      other.rootEntries.mapM (naming.onGraph other).entryPoint = .ok (others.map point) := by
  have hOtherSound := TypeGraph.sound_of_build hOther
  have hStructs : ∀ twin ∈ other.rootEntries, twin.isUnion = false := by
    intro twin hTwin
    obtain ⟨hMem, hListed⟩ := hOtherSound.mem_rootEntries_iff.1 hTwin
    obtain ⟨entry, hEntry, hAlike⟩ :=
      TypeGraph.exists_alike_of_build hOther hBuild (fun name => (hRoots name).symm) hMem
    rw [hAlike.isUnion]
    refine h.structs entry (h.sound.mem_rootEntries_iff.2 ⟨hEntry, ?_⟩)
    exact (hRoots _).2 (hAlike.name ▸ hListed)
  obtain ⟨sizes, hSizes, hSizesPerm⟩ :=
    exists_sizeFunctions_onGraph hBuild hOther hRoots h.sizeFunctions
  obtain ⟨functions, hFunctions, hFunctionsPerm⟩ :=
    exists_encodeFunctions_onGraph hBuild hOther hRoots (mapM_eq_ok.2 h.encodeFunctions)
  obtain ⟨point, hPoint, hPoints⟩ :=
    exists_entryPoints_onGraph hBuild hOther hRoots (mapM_eq_ok.2 h.entryPoints)
  exact ⟨sizes, functions, point, hStructs,
    (packedTypes_onGraph hBuild hOther hRoots).trans (mapM_eq_ok.2 h.types), hSizes, hSizesPerm,
    hFunctions, hFunctionsPerm, hPoint, hPoints⟩

end Compiled

/-- A program lists the roots of its request. -/
theorem roots_of_compile {declarations : Declarations} {index : DirectiveIndex}
    {settings : Settings} {request : Request} {program : Program}
    (hCompile : compile declarations index settings request = .ok program) :
    program.roots = request.roots := by
  obtain ⟨graph, _, h⟩ := bind_eq_ok.1 hCompile
  unfold programOf at h
  split at h
  · cases h
  · obtain ⟨types, _, h⟩ := bind_eq_ok.1 h
    obtain ⟨sizeFunctions, _, h⟩ := bind_eq_ok.1 h
    obtain ⟨encodeFunctions, _, h⟩ := bind_eq_ok.1 h
    obtain ⟨entryPoints, _, h⟩ := bind_eq_ok.1 h
    obtain rfl := pure_eq_ok.1 h
    rfl

/-- **Another order**: a request with the same roots as one that compiles compiles as well, to
a program with the same types, functions and entry points. -/
theorem exists_rearranged {declarations : Declarations} {index : DirectiveIndex}
    {settings : Settings} {first second : Request} {program : Program}
    (hService : first.service = second.service)
    (hRoots : ∀ name, name ∈ first.roots ↔ name ∈ second.roots)
    (hCompile : compile declarations index settings first = .ok program) :
    ∃ other, compile declarations index settings second = .ok other ∧
      program.Rearranges other := by
  obtain ⟨graph, hBuild, h⟩ := compiled_forService hCompile
  obtain ⟨other, hOther⟩ := TypeGraph.exists_build_of_roots hRoots hBuild
  obtain ⟨sizes, functions, point, hStructs, hTypes, hSizes, hSizesPerm, hFunctions,
    hFunctionsPerm, hPoint, hPoints⟩ := h.exists_parts_onGraph hBuild hOther hRoots
  have hNaming : (Naming.forService graph index settings first.service).onGraph other =
      Naming.forService other index settings second.service := by
    rw [← hService]
    rfl
  rw [hNaming] at hTypes hSizes hFunctions hPoints
  refine ⟨_, bind_eq_ok.2 ⟨other, hOther,
    programOf_eq_ok hStructs hTypes hSizes hFunctions hPoints⟩, ?_⟩
  exact
    { types := rfl
      sizeFunctions := hSizesPerm
      encodeFunctions := hFunctionsPerm
      entryPoints := ⟨point, roots_of_compile hCompile ▸ hPoint, rfl⟩ }

/-- **Order of the roots**: of two requests for one service with the same roots, in whatever
order and however often, both compile or neither does.  The programs declare the same types in
the same order, their functions are the same up to order, and the entry points stand in the
order of each request's roots. -/
theorem program_of_reordered_roots (declarations : Declarations) (index : DirectiveIndex)
    (settings : Settings) {first second : Request} (hService : first.service = second.service)
    (hRoots : ∀ name, name ∈ first.roots ↔ name ∈ second.roots) :
    ((∃ program, compile declarations index settings first = .ok program) ↔
        ∃ other, compile declarations index settings second = .ok other) ∧
      ∀ program other, compile declarations index settings first = .ok program →
        compile declarations index settings second = .ok other →
        program.types = other.types ∧ program.sizeFunctions.Perm other.sizeFunctions ∧
          program.encodeFunctions.Perm other.encodeFunctions ∧
          ∃ point : String → EntryPoint, program.entryPoints = first.roots.map point ∧
            other.entryPoints = second.roots.map point := by
  refine ⟨⟨?_, ?_⟩, ?_⟩
  · rintro ⟨program, hCompile⟩
    obtain ⟨other, hOther, _⟩ := exists_rearranged hService hRoots hCompile
    exact ⟨other, hOther⟩
  · rintro ⟨other, hOther⟩
    obtain ⟨program, hCompile, _⟩ :=
      exists_rearranged hService.symm (fun name => (hRoots name).symm) hOther
    exact ⟨program, hCompile⟩
  · intro program other hCompile hOther
    obtain ⟨same, hSame, hRearranged⟩ := exists_rearranged hService hRoots hCompile
    obtain rfl := Except.ok.inj (hSame.symm.trans hOther)
    obtain ⟨point, hPoint, hOtherPoint⟩ := hRearranged.entryPoints
    rw [roots_of_compile hCompile] at hPoint
    rw [roots_of_compile hOther] at hOtherPoint
    exact ⟨hRearranged.types.symm, hRearranged.sizeFunctions.symm,
      hRearranged.encodeFunctions.symm, point, hPoint, hOtherPoint⟩

namespace Sample

/-- The request for an archive and a batch, the other way round. -/
def swappedRequest : Request := ⟨"test", ["chreTestBatch", "chreTestArchive"], []⟩

/-- The request compiles in this order too, and the types are declared as before, but for other
entry points. -/
theorem swapped_roots_compile :
    ∃ other, compile moreDeclarations moreIndex moreSettings swappedRequest = .ok other ∧
      other.types = moreProgram.types ∧
      other.entryPoints.map EntryPoint.source = ["chreTestBatch", "chreTestArchive"] := by
  have hService : moreRequest.service = swappedRequest.service := rfl
  have hRoots : ∀ name, name ∈ moreRequest.roots ↔ name ∈ swappedRequest.roots := by
    simp [moreRequest, swappedRequest, or_comm]
  obtain ⟨hBoth, hSame⟩ :=
    program_of_reordered_roots moreDeclarations moreIndex moreSettings hService hRoots
  obtain ⟨other, hOther⟩ := hBoth.1 ⟨moreProgram, compiles_more⟩
  obtain ⟨hTypes, _⟩ := hSame moreProgram other compiles_more hOther
  obtain ⟨naming, _, hCompiled⟩ := compiled_of_compile hOther
  exact ⟨other, hOther, hTypes.symm, hCompiled.covers.entryPoints_eq⟩

end Sample

end WireSchema
