import Mathlib.Data.List.Rotate
import WireSchema.Proofs.MatchingLowering

/-!
# The format of a root is local

A compile looks at everything that is requested at once: types are numbered in the order of
their discovery, the variable-length mark is spread over the whole graph, and which types need
a size function is found by a search from all roots.  None of this shows in the bytes of one
root.  They depend on what the root contains, and there only on the declarations and on the
directives about encoded bytes.

So other roots and their order, unrelated types, generated names and settings can all change
without changing a byte.

## Main results

* `Compiled.encoder_matches`: encoders for two compiles of agreeing inputs match.
* `format_depends_on_contained_types`: layouts, encoded sizes and bytes.
-/

namespace WireSchema

namespace Compiled

/-! ## What a contained type was made into -/

section Single

variable {declarations : Declarations} {request : Request} {naming : Naming} {program : Program}
  {name : String} {entry : TypeEntry}

/-- A contained type is in dependency order. -/
theorem ordered_of_find? (h : Compiled declarations request naming program)
    (hContained : declarations.Contained request.roots name)
    (hFind : naming.graph.find? name = some entry) :
    entry ∈ naming.graph.entriesOf (naming.graph.postOrder naming.graph.roots) := by
  obtain ⟨same, hSame, hName⟩ := (h.sound.mem_names_iff name).2 hContained
  have hGraph := TypeGraph.entriesOf_subset hSame
  obtain rfl : same = entry := by
    rw [h.sound.find?_eq_some.2 ⟨hGraph, hName⟩] at hFind
    exact Option.some.inj hFind
  exact hSame

theorem encodeFunction?_of_struct (h : Compiled declarations request naming program)
    (hContained : declarations.Contained request.roots name)
    (hFind : naming.graph.find? name = some entry) (hStruct : entry.isUnion = false) :
    ∃ function, program.encodeFunction? name = some function ∧
      naming.encodeFunction entry = .ok function := by
  obtain ⟨function, hMem, hMade⟩ :=
    h.exists_encode_function (h.ordered_of_find? hContained hFind) hStruct
  have hSource := (Naming.encodeFunction_eq_ok hMade).1
  rw [(h.sound.find?_eq_some.1 hFind).2] at hSource
  exact ⟨function, h.encodeFunction?_eq_some.2 ⟨hMem, hSource⟩, hMade⟩

theorem encodeFunction?_of_union (h : Compiled declarations request naming program)
    (hFind : naming.graph.find? name = some entry) (hUnion : entry.isUnion = true) :
    program.encodeFunction? name = none := by
  obtain ⟨hEntry, hName⟩ := h.sound.find?_eq_some.1 hFind
  cases hFunction : program.encodeFunction? name with
  | none => rfl
  | some function =>
      obtain ⟨hMem, hSource⟩ := h.encodeFunction?_eq_some.1 hFunction
      obtain ⟨same, hSame, hMade⟩ := exists_left_of_mem h.encodeFunctions hMem
      obtain ⟨hOrder, hStruct⟩ := List.mem_filter.1 hSame
      have hGraph := TypeGraph.entriesOf_subset hOrder
      have hSameName := (Naming.encodeFunction_eq_ok hMade).1
      obtain rfl := h.sound.eq_of_name_eq hGraph hEntry
        (hSameName.symm.trans (hSource.trans hName.symm))
      simp [hUnion] at hStruct

/-- A size function of the type has its terms. -/
theorem sizeTerms_of_find? (h : Compiled declarations request naming program)
    (hFind : naming.graph.find? name = some entry) {sizes : SizeFunction}
    (hSizes : program.sizeFunction? name = some sizes) :
    naming.sizeTerms entry.toOutline = .ok sizes.terms := by
  obtain ⟨hEntry, rfl⟩ := h.sound.find?_eq_some.1 hFind
  exact h.sizeTerms_of_sizeFunction? hEntry hSizes

/-- A root has an entry point, which was made for its type. -/
theorem entryPoint?_of_root (h : Compiled declarations request naming program)
    (hRoot : name ∈ request.roots) (hFind : naming.graph.find? name = some entry) :
    ∃ point, program.entryPoint? name = some point ∧ naming.entryPoint entry = .ok point := by
  obtain ⟨point, hPoint⟩ := Option.isSome_iff_exists.1 (h.entryPoint?_isSome hRoot)
  have hSource := List.find?_some hPoint
  obtain ⟨same, _, hMade, _, hOrder⟩ := h.root_entry (List.mem_of_find?_eq_some hPoint)
  obtain ⟨hEntry, hName⟩ := h.sound.find?_eq_some.1 hFind
  have hGraph := TypeGraph.entriesOf_subset hOrder
  have hSameName := (Naming.entryPoint_eq_ok hMade).1
  obtain rfl := h.sound.eq_of_name_eq hGraph hEntry
    (hSameName.symm.trans ((eq_of_beq hSource).trans hName.symm))
  exact ⟨point, hPoint, hMade⟩

theorem sizesRoots (h : Compiled declarations request naming program) : program.SizesRoots := by
  intro point hPoint hDynamic
  have hSized := h.size_mem hPoint
  unfold EntryPoint.SizedIn at hSized
  split at hSized
  · rename_i hStatic
    exact absurd hStatic hDynamic
  · obtain ⟨_, sizes, hSizes, hSource, _⟩ := hSized
    rw [Program.sizeFunction?, find?_name_isSome]
    exact List.mem_map.2 ⟨sizes, hSizes, hSource⟩

end Single

/-! ## Two compiles of agreeing inputs -/

section Pair

variable {declarations others : Declarations} {request otherRequest : Request}
  {naming twin : Naming} {encoder other : Encoder} {root : String}
  (h : Compiled declarations request naming encoder.program)
  (hOther : Compiled others otherRequest twin other.program)
  (hAgree : AgreeOn declarations naming.index others twin.index root)
  (hRoot : root ∈ request.roots) (hOtherRoot : root ∈ otherRequest.roots)

include h hOther hAgree hRoot hOtherRoot

theorem graphs_match :
    naming.graph.Matches twin.graph (declarations.Contained [root]) :=
  hAgree.graph_matches h.sound hOther.sound hRoot hOtherRoot

/-- Contained types are laid out alike. -/
theorem layouts_eq {primitives : Primitives}
    (hLayouts : Layouts.ofProgram primitives encoder.program = .ok encoder.layouts)
    (hOtherLayouts : Layouts.ofProgram primitives other.program = .ok other.layouts) {name : String}
    (hName : declarations.Contained [root] name) :
    ∃ layout, encoder.layouts.get? name = some layout ∧ other.layouts.get? name = some layout := by
  apply Layouts.layouts_match h.calleeFirst hOther.calleeFirst hLayouts hOtherLayouts _ name hName
  intro name hName
  obtain ⟨entry, same, hFind, hSame, hMatches⟩ :=
    h.graphs_match hOther hAgree hRoot hOtherRoot name hName
  have hContained := Declarations.Contained.trans (.root hRoot) hName
  have hOtherContained :=
    Declarations.Contained.trans (.root hOtherRoot) ((hAgree.contained_iff name).1 hName)
  obtain ⟨type, hType, hMade⟩ := h.exists_type (h.ordered_of_find? hContained hFind)
  obtain ⟨twinType, hTwinType, hTwinMade⟩ :=
    hOther.exists_type (hOther.ordered_of_find? hOtherContained hSame)
  have hSource := (Naming.packedType_eq_ok hMade).1
  rw [(h.sound.find?_eq_some.1 hFind).2] at hSource
  exact ⟨type, hType, twinType, hTwinType, hSource,
    Naming.packedType_bothOk hMatches type twinType hMade hTwinMade⟩

/-- A contained structure is encoded alike, and a union is encoded by neither program. -/
theorem encodeFunction_outcome {name : String} (hName : declarations.Contained [root] name) :
    SameOutcome (EncodeFunction.Matches (declarations.Contained [root]))
      (encoder.encodeFunction name) (other.encodeFunction name) := by
  have hGraphs := h.graphs_match hOther hAgree hRoot hOtherRoot
  obtain ⟨entry, same, hFind, hSame, hMatches⟩ := hGraphs name hName
  have hContained := Declarations.Contained.trans (.root hRoot) hName
  have hOtherContained :=
    Declarations.Contained.trans (.root hOtherRoot) ((hAgree.contained_iff name).1 hName)
  unfold Encoder.encodeFunction
  by_cases hUnion : entry.isUnion = true
  · rw [h.encodeFunction?_of_union hFind hUnion,
      hOther.encodeFunction?_of_union hSame (hMatches.isUnion_eq ▸ hUnion)]
    exact .error _
  · have hStruct : entry.isUnion = false := by simpa using hUnion
    obtain ⟨function, hFunction, hMade⟩ := h.encodeFunction?_of_struct hContained hFind hStruct
    obtain ⟨twinFunction, hTwinFunction, hTwinMade⟩ :=
      hOther.encodeFunction?_of_struct hOtherContained hSame (hMatches.isUnion_eq ▸ hStruct)
    rw [hFunction, hTwinFunction]
    exact .ok (Naming.encodeFunction_bothOk hGraphs hMatches _ _ hMade hTwinMade)

/-- The entry points of the root match. -/
theorem entryPoint_outcome :
    SameOutcome (EntryPoint.Matches (declarations.Contained [root])) (encoder.entryPoint root)
      (other.entryPoint root) := by
  have hName : declarations.Contained [root] root := .root (List.mem_singleton.2 rfl)
  obtain ⟨entry, same, hFind, hSame, hMatches⟩ :=
    h.graphs_match hOther hAgree hRoot hOtherRoot root hName
  obtain ⟨point, hPoint, hMade⟩ := h.entryPoint?_of_root hRoot hFind
  obtain ⟨twinPoint, hTwinPoint, hTwinMade⟩ := hOther.entryPoint?_of_root hOtherRoot hSame
  obtain ⟨hSource, hVarLen, hStatic⟩ := Naming.entryPoint_eq_ok hMade
  obtain ⟨hTwinSource, hTwinVarLen, hTwinStatic⟩ := Naming.entryPoint_eq_ok hTwinMade
  unfold Encoder.entryPoint
  rw [hPoint, hTwinPoint]
  refine .ok ⟨?_, ?_, ?_, ?_⟩
  · rw [hSource, hTwinSource, hMatches.name]
  · rw [hSource]
    exact hMatches.mem
  · rw [hVarLen, hTwinVarLen, hMatches.varLen]
  · rw [hStatic, hTwinStatic, hMatches.varLen]

/-- **Encoders of agreeing inputs** match on what the root contains. -/
theorem encoder_matches {primitives : Primitives}
    (hLayouts : Layouts.ofProgram primitives encoder.program = .ok encoder.layouts)
    (hOtherLayouts : Layouts.ofProgram primitives other.program = .ok other.layouts)
    (hConstants : encoder.constants = other.constants)
    (hLimit : encoder.maxAllocation = other.maxAllocation) :
    encoder.MatchesOn other (declarations.Contained [root]) where
  first := h.calleeFirst
  otherFirst := hOther.calleeFirst
  sizesRoots := h.sizesRoots
  otherSizesRoots := hOther.sizesRoots
  constants := hConstants
  maxAllocation := hLimit
  layouts name hName := by
    obtain ⟨layout, hLayout, hSame⟩ :=
      h.layouts_eq hOther hAgree hRoot hOtherRoot hLayouts hOtherLayouts hName
    rw [hLayout, hSame]
  encodeFunctions name hName := h.encodeFunction_outcome hOther hAgree hRoot hOtherRoot hName
  sizeFunctions name hName sizes otherSizes hSizes hOtherSizes := by
    have hGraphs := h.graphs_match hOther hAgree hRoot hOtherRoot
    obtain ⟨entry, same, hFind, hSame, hMatches⟩ := hGraphs name hName
    exact Naming.sizeTerms_bothOk hGraphs hMatches _ _ (h.sizeTerms_of_find? hFind hSizes)
      (hOther.sizeTerms_of_find? hSame hOtherSizes)

end Pair

end Compiled

/-- **The format of a root is local**: if two inputs that compile agree on what a root contains,
every type that it contains has the same layout in both, and with the same values for symbols
and the same limit on allocations the root has the same encoded size and the same encoding, and
leaves every buffer the same. -/
theorem format_depends_on_contained_types {declarations others : Declarations}
    {index otherIndex : DirectiveIndex} {settings otherSettings : Settings}
    {request otherRequest : Request} {program otherProgram : Program} {primitives : Primitives}
    {encoder other : Encoder} {root : String}
    (hCompile : compile declarations index settings request = .ok program)
    (hOtherCompile : compile others otherIndex otherSettings otherRequest = .ok otherProgram)
    (hEncoder : encoder.IsFor program primitives) (hOther : other.IsFor otherProgram primitives)
    (hConstants : encoder.constants = other.constants)
    (hLimit : encoder.maxAllocation = other.maxAllocation)
    (hRoot : root ∈ request.roots) (hOtherRoot : root ∈ otherRequest.roots)
    (hAgree : AgreeOn declarations index others otherIndex root) :
    (∀ name, declarations.Contained [root] name → ∃ layout,
      encoder.layouts.get? name = some layout ∧ other.layouts.get? name = some layout) ∧
    ∀ value,
      encoder.encodedSize root value = other.encodedSize root value ∧
      encoder.encode root value = other.encode root value ∧
      ∀ buffer, encoder.encodeInto root value buffer = other.encodeInto root value buffer := by
  obtain ⟨rfl, hLayouts⟩ := hEncoder.layouts
  obtain ⟨rfl, hOtherLayouts⟩ := hOther.layouts
  obtain ⟨naming, rfl, h⟩ := compiled_of_compile hCompile
  obtain ⟨twin, rfl, hTwin⟩ := compiled_of_compile hOtherCompile
  have hMatches := h.encoder_matches hTwin hAgree hRoot hOtherRoot hLayouts hOtherLayouts
    hConstants hLimit
  have hPoints := h.entryPoint_outcome hTwin hAgree hRoot hOtherRoot
  refine ⟨fun name hName => ?_, fun value => hMatches.encodes_same hPoints value⟩
  exact h.layouts_eq hTwin hAgree hRoot hOtherRoot hLayouts hOtherLayouts hName

namespace Sample

/-- The declarations in another order, with one more. -/
def moreDeclarations : Declarations :=
  Table.ofList
    [ ("chreTestVariant", ⟨.union,
        [⟨"code", ⟨"uint32_t", .plain⟩⟩, ⟨"item", ⟨"struct chreTestItem", .plain⟩⟩]⟩)
    , ("chreTestArchive", ⟨.struct,
        [ ⟨"size", ⟨"uint32_t", .plain⟩⟩
        , ⟨"items", ⟨"const struct chreTestItem", .pointer⟩⟩ ]⟩)
    , ("chreTestItem", ⟨.struct, [⟨"id", ⟨"uint16_t", .plain⟩⟩]⟩)
    , ("chreTestBatch", batch) ]

/-- The directives on a batch, with others about names and about another type. -/
def moreIndex : DirectiveIndex :=
  ⟨[ ⟨"chreTestArchive", "items", .varLenArray "size"⟩
   , ⟨"chreTestItem", ".", .renameType "WireItem"⟩
   , ⟨"chreTestBatch", "kind", .enumeration none⟩
   , ⟨"chreTestBatch", "reserved", .fixedValue (.int 7)⟩
   , ⟨"chreTestBatch", "items", .varLenArray "count"⟩
   , ⟨"chreTestBatch", "body", .unionVariant "kind" [(.int 0, "code"), (.int 1, "item")]⟩ ]⟩

def moreSettings : Settings := { typePrefix := "Wire", functionPrefix := "wire" }

def moreRequest : Request := ⟨"test", ["chreTestArchive", "chreTestBatch"], ["chre/event.h"]⟩

/-- The outlines, of which the search finds those of the last root first. -/
def moreOutlines : List (String × Outline) :=
  ((discovery moreDeclarations moreIndex).collectWithin 20 [] moreRequest.roots.reverse).getD []

/-- The types of the request, linked and not marked. -/
def moreLinked : TypeGraph where
  entries := (moreOutlines.map Prod.snd).map (TypeGraph.linkedEntry
    ((TypeGraph.linkablesInOrder (moreOutlines.map Prod.snd)).rotate 3))
  roots := [3, 0]

def moreGraph : TypeGraph := moreLinked.markVarLen (moreLinked.varLenIds [1, 2, 0, 3])

def moreProgram : Program :=
  (programWithin 20 moreGraph moreIndex moreSettings moreRequest).getD default

theorem compiles_more :
    compile moreDeclarations moreIndex moreSettings moreRequest = .ok moreProgram := by
  let linkables := TypeGraph.linkablesInOrder (moreOutlines.map Prod.snd)
  have hComputed :
      (discovery moreDeclarations moreIndex).collectWithin 20 [] moreRequest.roots.reverse =
        some moreOutlines ∧
      (linkables.rotate 3).Pairwise (fun a b => a.name < b.name) ∧
      (moreRequest.roots.filterMap fun root =>
        (moreOutlines.map Prod.snd).findIdx? fun outline => outline.name == root) = [3, 0] ∧
      moreLinked.depthFirstWithin 20 [] [] moreLinked.ids = some [1, 2, 0, 3] ∧
      moreLinked.checkReferences = .ok () ∧
      programWithin 20 moreGraph moreIndex moreSettings moreRequest = some moreProgram := by
    decide +kernel
  obtain ⟨hFound, hSorted, hRoots, hOrder, hChecks, hProgram⟩ := hComputed
  have hLinked : TypeGraph.link (moreOutlines.map Prod.snd) moreRequest.roots = moreLinked := by
    unfold TypeGraph.link
    rw [TypeGraph.linkables_of_perm (List.rotate_perm linkables 3).symm hSorted, hRoots]
    rfl
  have hBuild := TypeGraph.build_of_link hFound hLinked hOrder hChecks
  exact bind_eq_ok.2 ⟨moreGraph, hBuild, programOf_of_programWithin hProgram⟩

def moreEncoder : Encoder :=
  ⟨moreProgram, (Layouts.ofProgram Primitives.standard moreProgram).toOption.getD Table.empty,
    Table.empty, payloadLimit⟩

theorem isFor_more : moreEncoder.IsFor moreProgram Primitives.standard :=
  Encoder.isFor_of_layouts (eq_ok_getD (by decide +kernel))

/-- The two inputs say the same of a batch. -/
theorem agreeOn_batch :
    AgreeOn declarations index moreDeclarations moreIndex "chreTestBatch" := by
  have hNames : ∀ name, declarations.Contained ["chreTestBatch"] name →
      name ∈ program.types.map PackedType.source := by
    intro name hName
    obtain ⟨naming, _, hCompiled⟩ := compiled_of_compile compiles
    exact (hCompiled.types_iff name).2 hName
  have hSame : ∀ name ∈ program.types.map PackedType.source,
      declarations.get? name = moreDeclarations.get? name ∧
      ∀ declaration ∈ declarations.get? name, ∀ field ∈ declaration.fields,
        (index.lookup name field.name).filter Directive.isOnWire =
          (moreIndex.lookup name field.name).filter Directive.isOnWire := by decide +kernel
  constructor
  · intro name hName
    exact (hSame name (hNames name hName)).1
  · intro owner declaration field hField
    have hOwner := hNames owner hField.contained
    exact (hSame owner hOwner).2 declaration hField.declared field hField.mem

/-- A batch of two items has the same bytes in both programs, although its functions are called
by other names and stand in other places. -/
theorem batch_format_same :
    moreProgram.encodeFunctions ≠ program.encodeFunctions ∧
      encoder.encode "chreTestBatch" value = moreEncoder.encode "chreTestBatch" value := by
  have hSame := format_depends_on_contained_types compiles compiles_more isFor isFor_more rfl rfl
    (by decide) (by decide) agreeOn_batch
  exact ⟨by decide +kernel, (hSame.2 value).2.1⟩

end Sample

end WireSchema
