import WireSchema.Proofs.DocumentTrees
import WireSchema.Proofs.PayloadArguments

/-!
# Names in the scope of a function

A generated function takes names of its own from the source: the parameter of a size function
is named after the type, and an encode function reaches the elements of a variable-length
array through a pointer with the name of the member.  Both share a scope with names that are
always the same, and nothing keeps them apart: an array called `payload` gives a function that
declares `payload` twice.  Nothing else is declared twice.

## Main results

* `EncodeFunction.scopeNames_tree`, `SizeFunction.scopeNames_tree`, `EntryPoint.scopeNames_tree`:
  what a function declares in its outermost scope.
* `Compiled.nodup_scopeNames_iff`: when the names of an encode function are distinct.
* `scope_names_collide_iff`: which functions of a document declare a name twice.
-/

namespace WireSchema

/-! ## What a function declares -/

/-- The name of the pointer through which a step reaches the elements that it stores. -/
def Step.pointer? : Step → Option String
  | varLen field .. => some field
  | _ => none

/-- The names of the pointers that the steps of a function declare. -/
def EncodeFunction.pointers (f : EncodeFunction) : List String :=
  f.steps.filterMap Step.pointer?

/-- The names of an encode function's parameters. -/
def encodeParameters (varLen : Bool) : List String :=
  ["in", "out"] ++ if varLen then ["payload", "payloadSize", "vlaOffset"] else []

/-- No variable-length array of the function has the name of a parameter. -/
def EncodeFunction.KeepsNamesApart (f : EncodeFunction) : Prop :=
  ∀ name ∈ f.pointers, name ∉ ["in", "out", "payload", "payloadSize", "vlaOffset"]

theorem Copy.declared?_tree (source target : String) (copy : Copy) :
    (copy.tree source target).declared? = none := by
  cases copy <;> rfl

/-- Of all steps only those that store a variable-length array declare anything. -/
theorem Step.declared_tree (step : Step) :
    (step.tree.filterMap CStatement.declared?).map CVariable.name = step.pointer?.toList := by
  cases step with
  | assign field copy => simp [Step.tree, Step.pointer?, Copy.declared?_tree]
  | varLen field lengthField element copy => rfl
  | union field record discriminator arms => rfl
  | fixedScalar field value => rfl
  | fixedFill field value => rfl

theorem declared_spacedTree (afterBlock? : Option Bool) (steps : List Step) :
    ((spacedTree afterBlock? steps).filterMap CStatement.declared?).map CVariable.name =
      steps.filterMap Step.pointer? := by
  induction steps generalizing afterBlock? with
  | nil => rfl
  | cons step rest ih =>
      have hPointer : (step :: rest).filterMap Step.pointer? =
          step.pointer?.toList ++ rest.filterMap Step.pointer? := by
        cases hCase : step.pointer? <;> simp [hCase]
      rw [hPointer, ← ih (some (isBlock step.text)), ← Step.declared_tree]
      simp only [spacedTree, List.filterMap_append, List.map_append, declared_blankLine,
        List.nil_append]

theorem EncodeFunction.scopeNames_tree (f : EncodeFunction) :
    f.tree.scopeNames = encodeParameters f.varLen ++ f.pointers := by
  have hParameters : f.tree.parameters.map CVariable.name = encodeParameters f.varLen := by
    unfold EncodeFunction.tree encodeParameters payloadVariables
    cases f.varLen <;> rfl
  rw [CTree.scopeNames, hParameters]
  exact congrArg _ (declared_spacedTree none f.steps)

theorem SizeTerm.declared?_tree (parameter : String) (term : SizeTerm) :
    (term.tree parameter).declared? = none := by
  cases term <;> rfl

theorem SizeFunction.scopeNames_tree (f : SizeFunction) :
    f.tree.scopeNames = [f.parameter, "encodedSize"] := by
  have hTerms : (f.terms.map (SizeTerm.tree f.parameter)).filterMap CStatement.declared? = [] := by
    apply List.filterMap_eq_nil_iff.2
    intro statement hStatement
    obtain ⟨term, _, rfl⟩ := List.mem_map.1 hStatement
    exact SizeTerm.declared?_tree _ term
  have hRest : (f.terms.map (SizeTerm.tree f.parameter) ++
      [CStatement.simple [.plain "return encodedSize"]]).filterMap CStatement.declared? = [] := by
    rw [List.filterMap_append, hTerms]
    rfl
  exact congrArg (fun rest => f.parameter :: "encodedSize" :: rest.map CVariable.name) hRest

theorem EntryPoint.scopeNames_tree (separator : String) (entry : EntryPoint) :
    (entry.tree separator).scopeNames =
      ["in", "out", "outSize", "payloadSize", "encoded"] ++
        if entry.varLen then ["payload", "vlaOffset"] else [] := by
  unfold EntryPoint.tree EntryPoint.encodeTree
  cases entry.varLen <;> rfl

/-! ## When names are distinct -/

theorem nodup_encodeParameters (varLen : Bool) : (encodeParameters varLen).Nodup := by
  cases varLen <;> decide

/-- The names of an entry point do not come from the source. -/
theorem EntryPoint.nodup_scopeNames (separator : String) (entry : EntryPoint) :
    (entry.tree separator).scopeNames.Nodup := by
  rw [EntryPoint.scopeNames_tree]
  cases entry.varLen <;> decide

theorem SizeFunction.nodup_scopeNames_iff (f : SizeFunction) :
    f.tree.scopeNames.Nodup ↔ f.parameter ≠ "encodedSize" := by
  simp [SizeFunction.scopeNames_tree]

/-- Pointers are named as the members that the steps are for. -/
theorem Step.pointers_sublist (steps : List Step) :
    (steps.filterMap Step.pointer?).Sublist (steps.map Step.field) := by
  induction steps with
  | nil => exact .slnil
  | cons step rest ih =>
      cases step with
      | varLen field lengthField element copy => exact ih.cons_cons field
      | assign field copy => exact ih.cons field
      | union field record discriminator arms => exact ih.cons field
      | fixedScalar field value => exact ih.cons field
      | fixedFill field value => exact ih.cons field

/-- The parameter of a size function is named after the type. -/
theorem Naming.parameter_of_sizeFunction {naming : Naming} {source : String}
    {terms : List SizeTerm} {made : SizeFunction}
    (h : naming.sizeFunction source terms = .ok made) :
    naming.parameterName source = .ok made.parameter := by
  obtain ⟨_, _, h⟩ := bind_eq_ok.1 h
  obtain ⟨_, _, h⟩ := bind_eq_ok.1 h
  obtain ⟨parameter, hParameter, h⟩ := bind_eq_ok.1 h
  obtain rfl := pure_eq_ok.1 h
  exact hParameter

theorem Naming.parameterName_eq_ok {naming : Naming} {source parameter : String}
    (h : naming.parameterName source = .ok parameter) :
    ∃ core, source = naming.settings.apiPrefix ++ (naming.service ++ core) ∧
      parameter = Text.lowerFirst core := by
  obtain ⟨core, hCore, h⟩ := bind_eq_ok.1 h
  exact ⟨core, Naming.eq_append_of_coreName hCore, (pure_eq_ok.1 h).symm⟩

namespace Compiled

variable {declarations : Declarations} {request : Request} {naming : Naming} {program : Program}

/-- The steps of a function are for members with distinct names. -/
theorem nodup_step_fields (h : Compiled declarations request naming program)
    (hFields : program.DistinctFields declarations) {encodes : EncodeFunction}
    (hEncodes : encodes ∈ program.encodeFunctions) : (encodes.steps.map Step.field).Nodup := by
  obtain ⟨entry, hEntry, hMade⟩ := exists_left_of_mem h.encodeFunctions hEncodes
  have hOrder := (List.mem_filter.1 hEntry).1
  obtain ⟨type, hType, hPacked⟩ := h.exists_type hOrder
  obtain ⟨declaration, hDeclared, hMembers⟩ := h.declared_of_packedType hOrder hPacked
  rw [map_eq_of_forall₂ (f := fun member : Member => member.name)
    (Naming.encodeFunction_eq_ok hMade).2.2 fun _ _ hStep => Compiled.step_field hStep,
    hMembers, Declaration.members, List.map_map]
  exact hFields type hType declaration hDeclared

theorem varLen_of_mem_pointers (h : Compiled declarations request naming program)
    {encodes : EncodeFunction} (hEncodes : encodes ∈ program.encodeFunctions) {name : String}
    (hName : name ∈ encodes.pointers) : encodes.varLen = true := by
  obtain ⟨step, hStep, hPointer⟩ := List.mem_filterMap.1 hName
  by_contra hFixed
  have hNone := (h.fixed_steps hEncodes (by simpa using hFixed) hStep).1
  cases step with
  | varLen field lengthField element copy => exact hNone _ _ _ _ rfl
  | _ => cases hPointer

/-- **Names of an encode function**: they are distinct unless a variable-length array has the
name of a parameter. -/
theorem nodup_scopeNames_iff (h : Compiled declarations request naming program)
    (hFields : program.DistinctFields declarations) {encodes : EncodeFunction}
    (hEncodes : encodes ∈ program.encodeFunctions) :
    encodes.tree.scopeNames.Nodup ↔ encodes.KeepsNamesApart := by
  have hPointers : encodes.pointers.Nodup :=
    (h.nodup_step_fields hFields hEncodes).sublist (Step.pointers_sublist encodes.steps)
  rw [EncodeFunction.scopeNames_tree, List.nodup_append]
  constructor
  · rintro ⟨_, _, hApart⟩ name hName hParameter
    rw [h.varLen_of_mem_pointers hEncodes hName] at hApart
    exact hApart name hParameter name hName rfl
  · intro hApart
    refine ⟨nodup_encodeParameters _, hPointers, ?_⟩
    rintro name hParameter _ hName rfl
    rw [h.varLen_of_mem_pointers hEncodes hName] at hParameter
    exact hApart name hName hParameter

/-- A size function takes a parameter with the core name of its type, its first character in
lower case. -/
theorem size_parameter (h : Compiled declarations request naming program) {sizes : SizeFunction}
    (hSizes : sizes ∈ program.sizeFunctions) :
    ∃ core, sizes.source = naming.settings.apiPrefix ++ (naming.service ++ core) ∧
      sizes.parameter = Text.lowerFirst core := by
  obtain ⟨needed, _, hMade⟩ := h.exists_sizeFunctions
  obtain ⟨pair, _, hSize⟩ := exists_left_of_mem hMade hSizes
  rw [(Naming.sizeFunction_eq_ok hSize).1]
  exact Naming.parameterName_eq_ok (Naming.parameter_of_sizeFunction hSize)

end Compiled

/-! ## The document -/

/-- The names of a program's functions are distinct if those of its size and encode functions
are. -/
theorem Program.nodup_scopeNames_iff (program : Program) :
    (∀ tree ∈ program.trees, tree.scopeNames.Nodup) ↔
      (∀ sizes ∈ program.sizeFunctions, sizes.tree.scopeNames.Nodup) ∧
        ∀ encodes ∈ program.encodeFunctions, encodes.tree.scopeNames.Nodup := by
  have hPoints : ∀ tree ∈ entryTrees program.entryPoints, tree.scopeNames.Nodup := by
    intro tree hTree
    obtain ⟨point, _, separator, rfl⟩ := mem_entryTrees hTree
    exact point.nodup_scopeNames separator
  unfold Program.trees
  simp only [List.forall_mem_append, List.forall_mem_map]
  constructor
  · rintro ⟨⟨hSizes, hEncodes⟩, _⟩
    exact ⟨hSizes, hEncodes⟩
  · rintro ⟨hSizes, hEncodes⟩
    exact ⟨⟨hSizes, hEncodes⟩, hPoints⟩

/-- **Names declared twice**: the conversion document is a preamble and the functions of the
program.  In its outermost scope an encode function declares its parameters and a pointer for
each step that stores a variable-length array, under the name of the member, and these names
are distinct exactly if no such member is called `in`, `out`, `payload`, `payloadSize` or
`vlaOffset`.  A size function declares `encodedSize` and its parameter, which is the core name
of its type with its first character in lower case, and these are distinct exactly if that is not
`encodedSize` again.  An entry point declares no name twice. -/
theorem scope_names_collide_iff {declarations : Declarations} {index : DirectiveIndex}
    {settings : Settings} {request : Request} {program : Program}
    (hCompile : compile declarations index settings request = .ok program)
    (hFields : program.DistinctFields declarations) :
    (∀ other : Settings, (program.conversionDocument other).fragments =
        program.preamble other ++ program.trees.map CTree.text) ∧
      (∀ encodes ∈ program.encodeFunctions,
        encodes.tree.scopeNames = encodeParameters encodes.varLen ++ encodes.pointers ∧
          (encodes.tree.scopeNames.Nodup ↔ encodes.KeepsNamesApart)) ∧
      (∀ sizes ∈ program.sizeFunctions, ∃ core,
        sizes.source = settings.apiPrefix ++ (Text.upperFirst request.service ++ core) ∧
          sizes.tree.scopeNames = [Text.lowerFirst core, "encodedSize"] ∧
          (sizes.tree.scopeNames.Nodup ↔ Text.lowerFirst core ≠ "encodedSize")) ∧
      (∀ point ∈ program.entryPoints, ∀ separator, (point.tree separator).scopeNames.Nodup) ∧
      ((∀ tree ∈ program.trees, tree.scopeNames.Nodup) ↔
        (∀ sizes ∈ program.sizeFunctions, sizes.parameter ≠ "encodedSize") ∧
          ∀ encodes ∈ program.encodeFunctions, encodes.KeepsNamesApart) := by
  obtain ⟨graph, _, h⟩ := compiled_forService hCompile
  refine ⟨program.fragments_trees, ?_, ?_,
    fun point _ separator => point.nodup_scopeNames separator, ?_⟩
  · intro encodes hEncodes
    exact ⟨encodes.scopeNames_tree, h.nodup_scopeNames_iff hFields hEncodes⟩
  · intro sizes hSizes
    obtain ⟨core, hSource, hParameter⟩ := h.size_parameter hSizes
    refine ⟨core, hSource, ?_, ?_⟩
    · rw [sizes.scopeNames_tree, hParameter]
    · rw [sizes.nodup_scopeNames_iff, hParameter]
  · rw [program.nodup_scopeNames_iff]
    apply and_congr
    · exact forall₂_congr fun sizes _ => sizes.nodup_scopeNames_iff
    · exact forall₂_congr fun encodes hEncodes => h.nodup_scopeNames_iff hFields hEncodes

namespace Sample

/-- The batch program declares no name twice. -/
theorem batch_scopes_distinct :
    program.DistinctFields declarations ∧
      convertBatch.tree.scopeNames =
        ["in", "out", "payload", "payloadSize", "vlaOffset", "items"] ∧
      ∀ tree ∈ program.trees, tree.scopeNames.Nodup := by
  obtain ⟨_, hEncodes, _, _, hAll⟩ := scope_names_collide_iff compiles distinctFields
  have hBatch : convertBatch ∈ program.encodeFunctions ∧
      encodeParameters convertBatch.varLen ++ convertBatch.pointers =
        ["in", "out", "payload", "payloadSize", "vlaOffset", "items"] := by decide +kernel
  have hApart :
      (∀ sizes ∈ program.sizeFunctions, sizes.parameter ≠ "encodedSize") ∧
        ∀ encodes ∈ program.encodeFunctions, encodes.KeepsNamesApart := by
    unfold EncodeFunction.KeepsNamesApart
    decide +kernel
  exact ⟨distinctFields, (hEncodes _ hBatch.1).1.trans hBatch.2, hAll.2 hApart⟩

/-- A type and an array with names that are always in scope. -/
def homonyms : Declarations :=
  Table.ofList
    [ ("chreTestEncodedSize", ⟨.struct,
        [⟨"count", ⟨"uint8_t", .plain⟩⟩, ⟨"payload", ⟨"const uint16_t", .pointer⟩⟩]⟩) ]

def homonymIndex : DirectiveIndex := ⟨[⟨"chreTestEncodedSize", "payload", .varLenArray "count"⟩]⟩

def homonymRequest : Request := ⟨"test", ["chreTestEncodedSize"], []⟩

def homonymProgram : Program :=
  (compileWithin 20 homonyms homonymIndex {} homonymRequest).getD default

/-- The size function declares `encodedSize` twice, the encode function `payload`. -/
theorem homonyms_declared_twice :
    compile homonyms homonymIndex {} homonymRequest = .ok homonymProgram ∧
      homonymProgram.DistinctFields homonyms ∧
      (∀ other : Settings, (homonymProgram.conversionDocument other).fragments =
        homonymProgram.preamble other ++ homonymProgram.trees.map CTree.text) ∧
      (homonymProgram.sizeFunctions.map fun sizes => sizes.tree.scopeNames) =
        [["encodedSize", "encodedSize"]] ∧
      (homonymProgram.encodeFunctions.map fun encodes => encodes.tree.scopeNames) =
        [["in", "out", "payload", "payloadSize", "vlaOffset", "payload"]] ∧
      ¬ ∀ tree ∈ homonymProgram.trees, tree.scopeNames.Nodup := by
  have hSizes : (homonymProgram.sizeFunctions.map fun sizes => sizes.tree.scopeNames) =
      [["encodedSize", "encodedSize"]] := by
    simp only [SizeFunction.scopeNames_tree]
    decide +kernel
  have hEncodes : (homonymProgram.encodeFunctions.map fun encodes => encodes.tree.scopeNames) =
      [["in", "out", "payload", "payloadSize", "vlaOffset", "payload"]] := by
    simp only [EncodeFunction.scopeNames_tree]
    decide +kernel
  refine ⟨compile_getD (by decide +kernel), by unfold Program.DistinctFields; decide +kernel,
    homonymProgram.fragments_trees, hSizes, hEncodes, ?_⟩
  intro hAll
  have hNodup := (homonymProgram.nodup_scopeNames_iff.1 hAll).1
  have hMem : ["encodedSize", "encodedSize"] ∈
      homonymProgram.sizeFunctions.map fun sizes => sizes.tree.scopeNames := by simp [hSizes]
  obtain ⟨sizes, hSize, hNames⟩ := List.mem_map.1 hMem
  have hDistinct := hNodup sizes hSize
  rw [hNames] at hDistinct
  exact absurd hDistinct (by decide)

end Sample

end WireSchema
