import WireSchema.Proofs.ClosedProgram

/-!
# Which function names are distinct

A function name has the role between the service and the core name of the source type, and
an entry point has no text for its role.  So the name of an entry point can be read as that
of another function, if the core name of its type begins with the text of another role:
`chreTestConvertItem` is encoded through an entry point with the name of the function that
encodes `chreTestItem`.  Nothing else makes two functions of a program have one name.

## Main results

* `Naming.functionName_eq_iff`: when functions have the same name.
* `function_names_collide_iff`: which names of a program are the same, and when none are.
-/

namespace WireSchema

/-! ## Names -/

/-- The text of a role can be told from that of another, unless one of them has none. -/
theorem FunctionRole.eq_of_infixText_append {role other : FunctionRole} {core otherCore : String}
    (h : role.infixText ++ core = other.infixText ++ otherCore) (hRole : role ≠ .allocate)
    (hOther : other ≠ .allocate) : role = other := by
  have hChars := congrArg String.toList h
  rw [String.toList_append, String.toList_append] at hChars
  cases role with
  | allocate => exact absurd rfl hRole
  | convert =>
      cases other with
      | allocate => exact absurd rfl hOther
      | convert => rfl
      | sizeOf => simp [infixText] at hChars
  | sizeOf =>
      cases other with
      | allocate => exact absurd rfl hOther
      | convert => simp [infixText] at hChars
      | sizeOf => rfl

/-- Functions have the same name exactly if role and core name run together to the same text. -/
theorem Naming.functionName_eq_iff {naming : Naming} {role otherRole : FunctionRole}
    {source otherSource name otherName : String}
    (h : naming.functionName role source = .ok name)
    (hOther : naming.functionName otherRole otherSource = .ok otherName) :
    name = otherName ↔
      ∃ core otherCore, role.infixText ++ core = otherRole.infixText ++ otherCore ∧
        source = naming.settings.apiPrefix ++ (naming.service ++ core) ∧
        otherSource = naming.settings.apiPrefix ++ (naming.service ++ otherCore) := by
  obtain ⟨core, hSource, rfl⟩ := Naming.functionName_eq_ok h
  obtain ⟨otherCore, hOtherSource, rfl⟩ := Naming.functionName_eq_ok hOther
  constructor
  · intro hName
    refine ⟨core, otherCore, ?_, hSource, hOtherSource⟩
    simpa only [String.append_left_inj, String.append_right_inj] using hName
  · rintro ⟨same, otherSame, hText, hSame, hOtherSame⟩
    rw [hSource] at hSame
    rw [hOtherSource] at hOtherSame
    simp only [String.append_right_inj] at hSame hOtherSame
    rw [hSame, hOtherSame, hText]

/-! ## Functions of a program -/

/-- A function that a program defines. -/
structure GeneratedFunction where
  role : FunctionRole
  /-- The type that the function is for. -/
  source : String
  name : String
  deriving DecidableEq, Repr, Inhabited

namespace Program

/-- The functions that only the conversion document sees. -/
def staticFunctions (program : Program) : List GeneratedFunction :=
  program.sizeFunctions.map (fun sizes => ⟨.sizeOf, sizes.source, sizes.function⟩) ++
    program.encodeFunctions.map fun encodes => ⟨.convert, encodes.source, encodes.function⟩

/-- The entry points. -/
def publicFunctions (program : Program) : List GeneratedFunction :=
  program.entryPoints.map fun point => ⟨.allocate, point.source, point.function⟩

/-- Whatever the conversion document defines, in its order. -/
def functions (program : Program) : List GeneratedFunction :=
  program.staticFunctions ++ program.publicFunctions

variable {program : Program} {function : GeneratedFunction}

theorem role_of_staticFunctions (h : function ∈ program.staticFunctions) :
    function.role ≠ .allocate := by
  rcases List.mem_append.1 h with h | h <;>
  · obtain ⟨_, _, rfl⟩ := List.mem_map.1 h
    simp

theorem role_of_publicFunctions (h : function ∈ program.publicFunctions) :
    function.role = .allocate := by
  obtain ⟨_, _, rfl⟩ := List.mem_map.1 h
  rfl

end Program

/-- The core name of an entry point's type begins with the text for the role of another
function, and goes on with the core name of that function's type. -/
def GeneratedFunction.Imitates (point function : GeneratedFunction) (settings : Settings)
    (service : String) : Prop :=
  point.role = .allocate ∧ function.role ≠ .allocate ∧
    ∃ core, function.source = settings.apiPrefix ++ (Text.upperFirst service ++ core) ∧
      point.source =
        settings.apiPrefix ++ (Text.upperFirst service ++ (function.role.infixText ++ core))

namespace Compiled

variable {declarations : Declarations} {request : Request} {naming : Naming} {program : Program}
  {function other : GeneratedFunction}

/-- Every function has the name made for its role and its type. -/
theorem function_named (h : Compiled declarations request naming program)
    (hFunction : function ∈ program.functions) :
    naming.functionName function.role function.source = .ok function.name := by
  rcases List.mem_append.1 hFunction with hStatic | hPublic
  · rcases List.mem_append.1 hStatic with hSize | hEncode
    · obtain ⟨sizes, hSizes, rfl⟩ := List.mem_map.1 hSize
      exact (h.size_function_names hSizes).2
    · obtain ⟨encodes, hEncodes, rfl⟩ := List.mem_map.1 hEncode
      obtain ⟨entry, _, hMade⟩ := h.exists_entry hEncodes
      rw [(Naming.encodeFunction_eq_ok hMade).1]
      exact Naming.function_of_encodeFunction hMade
  · obtain ⟨point, hPoint, rfl⟩ := List.mem_map.1 hPublic
    obtain ⟨entry, _, hMade, _⟩ := h.root_entry hPoint
    rw [(Naming.entryPoint_eq_ok hMade).1]
    exact Naming.function_of_entryPoint hMade

/-- A function is known by its role and its type. -/
theorem function_eq (h : Compiled declarations request naming program)
    (hFunction : function ∈ program.functions) (hOther : other ∈ program.functions)
    (hRole : function.role = other.role) (hSource : function.source = other.source) :
    function = other := by
  have hName := h.function_named hFunction
  rw [hRole, hSource, h.function_named hOther] at hName
  cases function
  cases other
  simp_all

theorem nodup_staticFunctions (h : Compiled declarations request naming program) :
    program.staticFunctions.Nodup := by
  refine List.nodup_append.2 ⟨?_, ?_, fun function hSize other hEncode hSame => ?_⟩
  · refine List.Nodup.of_map GeneratedFunction.source ?_
    rw [List.map_map]
    exact h.nodup_size_sources
  · refine List.Nodup.of_map GeneratedFunction.source ?_
    rw [List.map_map]
    exact h.nodup_encode_sources
  · obtain ⟨sizes, _, rfl⟩ := List.mem_map.1 hSize
    obtain ⟨encodes, _, rfl⟩ := List.mem_map.1 hEncode
    cases hSame

theorem nodup_publicFunctions (h : Compiled declarations request naming program)
    (hRoots : request.roots.Nodup) : program.publicFunctions.Nodup := by
  refine List.Nodup.of_map GeneratedFunction.source ?_
  unfold Program.publicFunctions
  rw [List.map_map]
  exact h.covers.entryPoints_eq ▸ hRoots

/-- An entry point that imitates a function has its name. -/
theorem name_of_imitates {graph : TypeGraph} {index : DirectiveIndex} {settings : Settings}
    (h : Compiled declarations request (.forService graph index settings request.service) program)
    (hFunction : function ∈ program.functions) (hOther : other ∈ program.functions)
    (hImitates : function.Imitates other settings request.service) :
    function.name = other.name := by
  obtain ⟨hRole, _, core, hSource, hPoint⟩ := hImitates
  refine (Naming.functionName_eq_iff (h.function_named hFunction) (h.function_named hOther)).2
    ⟨other.role.infixText ++ core, core, ?_, hPoint, hSource⟩
  rw [hRole]
  rfl

/-- **Names that are the same**: two functions of a program have one name only if they are the
same, or one of them is an entry point that imitates the other. -/
theorem name_eq_iff {graph : TypeGraph} {index : DirectiveIndex} {settings : Settings}
    (h : Compiled declarations request (.forService graph index settings request.service) program)
    (hFunction : function ∈ program.functions) (hOther : other ∈ program.functions) :
    function.name = other.name ↔
      function = other ∨ function.Imitates other settings request.service ∨
        other.Imitates function settings request.service := by
  constructor
  · intro hName
    obtain ⟨core, otherCore, hText, hSource, hOtherSource⟩ :=
      (Naming.functionName_eq_iff (h.function_named hFunction) (h.function_named hOther)).1 hName
    by_cases hRole : function.role = .allocate
    · by_cases hOtherRole : other.role = .allocate
      · rw [hRole, hOtherRole] at hText
        have hCores : core = otherCore := by simpa [FunctionRole.infixText] using hText
        exact .inl (h.function_eq hFunction hOther (hRole.trans hOtherRole.symm)
          (by rw [hSource, hOtherSource, hCores]))
      · -- Only the first is an entry point, and its core name is role and core of the other.
        have hCore : core = other.role.infixText ++ otherCore := by
          rw [hRole] at hText
          simpa [FunctionRole.infixText] using hText
        exact .inr (.inl ⟨hRole, hOtherRole, otherCore, hOtherSource, hCore ▸ hSource⟩)
    · by_cases hOtherRole : other.role = .allocate
      · have hCore : otherCore = function.role.infixText ++ core := by
          rw [hOtherRole] at hText
          simpa [FunctionRole.infixText] using hText.symm
        exact .inr (.inr ⟨hOtherRole, hRole, core, hSource, hCore ▸ hOtherSource⟩)
      · have hSame := FunctionRole.eq_of_infixText_append hText hRole hOtherRole
        rw [hSame, String.append_right_inj] at hText
        exact .inl (h.function_eq hFunction hOther hSame (by rw [hSource, hOtherSource, hText]))
  · rintro (rfl | hImitates | hImitates)
    · rfl
    · exact h.name_of_imitates hFunction hOther hImitates
    · exact (h.name_of_imitates hOther hFunction hImitates).symm

theorem nodup_staticNames {graph : TypeGraph} {index : DirectiveIndex} {settings : Settings}
    (h : Compiled declarations request (.forService graph index settings request.service)
      program) : (program.staticFunctions.map GeneratedFunction.name).Nodup := by
  refine h.nodup_staticFunctions.map_on fun function hFunction other hOther hName => ?_
  rcases (h.name_eq_iff (List.mem_append_left _ hFunction)
    (List.mem_append_left _ hOther)).1 hName with hSame | hImitates | hImitates
  · exact hSame
  · exact absurd hImitates.1 (Program.role_of_staticFunctions hFunction)
  · exact absurd hImitates.1 (Program.role_of_staticFunctions hOther)

theorem nodup_publicNames {graph : TypeGraph} {index : DirectiveIndex} {settings : Settings}
    (h : Compiled declarations request (.forService graph index settings request.service) program)
    (hRoots : request.roots.Nodup) :
    (program.publicFunctions.map GeneratedFunction.name).Nodup := by
  refine (h.nodup_publicFunctions hRoots).map_on fun function hFunction other hOther hName => ?_
  rcases (h.name_eq_iff (List.mem_append_right _ hFunction)
    (List.mem_append_right _ hOther)).1 hName with hSame | hImitates | hImitates
  · exact hSame
  · exact absurd (Program.role_of_publicFunctions hOther) hImitates.2.1
  · exact absurd (Program.role_of_publicFunctions hFunction) hImitates.2.1

/-- An entry point has the name of a size or encode function only if it imitates it. -/
theorem point_name_eq_iff {graph : TypeGraph} {index : DirectiveIndex} {settings : Settings}
    (h : Compiled declarations request (.forService graph index settings request.service) program)
    {point : GeneratedFunction} (hPoint : point ∈ program.publicFunctions)
    (hFunction : function ∈ program.staticFunctions) :
    point.name = function.name ↔ point.Imitates function settings request.service := by
  have hRole := Program.role_of_publicFunctions hPoint
  have hOtherRole := Program.role_of_staticFunctions hFunction
  rw [h.name_eq_iff (List.mem_append_right _ hPoint) (List.mem_append_left _ hFunction)]
  constructor
  · rintro (rfl | hImitates | hImitates)
    · exact absurd hRole hOtherRole
    · exact hImitates
    · exact absurd hImitates.1 hOtherRole
  · exact fun hImitates => .inr (.inl hImitates)

end Compiled

/-- **Distinct names**: among the size and encode functions of a compiled program no two have
the same name, and no two entry points have.  An entry point has the name of a size or encode
function exactly if the core name of its type is the role and the core name of the other; the
names of all functions are distinct exactly if no entry point of the program imitates another
function in this way. -/
theorem function_names_collide_iff {declarations : Declarations} {index : DirectiveIndex}
    {settings : Settings} {request : Request} {program : Program} (hRequest : request.Built)
    (hCompile : compile declarations index settings request = .ok program) :
    (program.staticFunctions.map GeneratedFunction.name).Nodup ∧
      (program.publicFunctions.map GeneratedFunction.name).Nodup ∧
      (∀ point ∈ program.publicFunctions, ∀ function ∈ program.staticFunctions,
        (point.name = function.name ↔ point.Imitates function settings request.service)) ∧
      ((program.functions.map GeneratedFunction.name).Nodup ↔
        ∀ point ∈ program.publicFunctions, ∀ function ∈ program.staticFunctions,
          ¬ point.Imitates function settings request.service) := by
  obtain ⟨graph, _, h⟩ := compiled_forService hCompile
  have hStatic := h.nodup_staticNames
  have hPublic := h.nodup_publicNames hRequest.nodup_roots
  refine ⟨hStatic, hPublic, fun _ hPoint _ => h.point_name_eq_iff hPoint, ?_⟩
  rw [Program.functions, List.map_append, List.nodup_append]
  constructor
  · rintro ⟨_, _, hApart⟩ point hPoint function hFunction hImitates
    exact hApart _ (List.mem_map_of_mem hFunction) _ (List.mem_map_of_mem hPoint)
      ((h.point_name_eq_iff hPoint hFunction).2 hImitates).symm
  · intro hNone
    refine ⟨hStatic, hPublic, fun name hName other hOther hSame => ?_⟩
    obtain ⟨function, hFunction, rfl⟩ := List.mem_map.1 hName
    obtain ⟨point, hPoint, rfl⟩ := List.mem_map.1 hOther
    exact hNone point hPoint function hFunction
      ((h.point_name_eq_iff hPoint hFunction).1 hSame.symm)

namespace Sample

/-- No entry point of the batch program imitates another function, so that all its functions
have names of their own. -/
theorem batch_names_distinct :
    (program.functions.map GeneratedFunction.name).Nodup ∧
      ∀ point ∈ program.publicFunctions, ∀ function ∈ program.staticFunctions,
        ¬ point.Imitates function {} "test" := by
  obtain ⟨_, _, _, hAll⟩ := function_names_collide_iff built compiles
  have hNodup : (program.functions.map GeneratedFunction.name).Nodup := by decide +kernel
  exact ⟨hNodup, hAll.1 hNodup⟩

/-- A type whose core name is the role of an encode function and the core name of an item. -/
def imitating : Declarations :=
  Table.ofList
    [ ("chreTestConvertItem", ⟨.struct, [⟨"item", ⟨"struct chreTestItem", .plain⟩⟩]⟩)
    , ("chreTestItem", ⟨.struct, [⟨"id", ⟨"uint8_t", .plain⟩⟩]⟩) ]

def imitatingRequest : Request := ⟨"test", ["chreTestConvertItem"], []⟩

def imitatingProgram : Program := (compileWithin 20 imitating ⟨[]⟩ {} imitatingRequest).getD default

/-- The entry point has the name of the function that encodes items. -/
theorem imitating_names_collide :
    imitatingRequest.Built ∧ compile imitating ⟨[]⟩ {} imitatingRequest = .ok imitatingProgram ∧
      imitatingProgram.functions =
        [ ⟨.convert, "chreTestItem", "chppTestConvertItemFromChre"⟩
        , ⟨.convert, "chreTestConvertItem", "chppTestConvertConvertItemFromChre"⟩
        , ⟨.allocate, "chreTestConvertItem", "chppTestConvertItemFromChre"⟩ ] ∧
      ¬ (imitatingProgram.functions.map GeneratedFunction.name).Nodup :=
  ⟨.addRoot "chreTestConvertItem" (.forService "test"), compile_getD (by decide +kernel),
    by decide +kernel, by decide +kernel⟩

end Sample

end WireSchema
