import WireSchema.Compile.Program
import WireSchema.Proofs.AcceptedInputs
import WireSchema.Proofs.ClosedProgram

/-!
# Which members are rejected for what they nest

Variable-length data can be encoded only in a plain member.  Two passes reject it elsewhere.
One computes the terms of a size function, for the types that a search from the
variable-length roots comes to; the other chooses steps, for every structure.  Each sees some
of the shapes that are not supported.

Whichever pass it is that fails, the member that the error names is there, its type is not
overridden, and it has one of the shapes.

## Main results

* `Naming.failsOnly_sizeTerm?`, `Naming.failsOnly_step`: the members that each pass rejects.
* `failsOnly_compile`: the member that compiling rejects.
-/

namespace WireSchema

/-- Variable-length data where only data of a fixed size can be encoded. -/
inductive Field.Unsupported (declarations : Declarations) (index : DirectiveIndex)
    (owner : String) (field : Field) : Prop
  /-- The elements of a variable-length array. -/
  | elements {lengthField nested : String} :
      .varLenArray lengthField ∈ index.lookup owner field.name →
      field.type.aggregateName? = some nested → declarations.IsVarLen index nested →
      Unsupported declarations index owner field
  /-- The elements of a fixed array. -/
  | array {length : Nat} {nested : String} :
      field.type.arrayLength? = some length →
      field.type.aggregateName? = some nested → declarations.IsVarLen index nested →
      Unsupported declarations index owner field
  | union {type : String} {union : Declaration} :
      declarations.IsUnionTyped field type union → declarations.IsVarLen index type →
      Unsupported declarations index owner field
  /-- A fixed array of unions with a discriminator, which has one value for all of them. -/
  | unionArray {length : Nat} {type discriminator : String} {union : Declaration}
      {mapping : List (Literal × String)} :
      field.type.arrayLength? = some length → declarations.IsUnionTyped field type union →
      .unionVariant discriminator mapping ∈ index.lookup owner field.name →
      Unsupported declarations index owner field

/-- If the error is about nesting, the member it names is one that is not supported. -/
def CompileError.NestingTrueOf (declarations : Declarations) (index : DirectiveIndex)
    (roots : List String) : CompileError → Prop
  | .unsupportedNesting owner name =>
    ∃ declaration field, declarations.FieldIn roots owner declaration field ∧ field.name = name ∧
      (∀ spec, .overrideType spec ∉ index.lookup owner name) ∧
      field.Unsupported declarations index owner
  | _ => True

theorem CompileError.TrueOf.nestingTrueOf {declarations : Declarations} {index : DirectiveIndex}
    {roots : List String} {e : CompileError} (h : e.TrueOf declarations index roots) :
    e.NestingTrueOf declarations index roots := by
  cases e <;> trivial

/-- The computation names only members that are not supported, if it fails for nesting. -/
abbrev RejectsTruly (declarations : Declarations) (index : DirectiveIndex) (roots : List String)
    {α : Type} (x : Except CompileError α) : Prop :=
  FailsOnly (CompileError.NestingTrueOf declarations index roots) x

namespace Naming

variable {declarations : Declarations} {index : DirectiveIndex} {roots : List String}
  {naming : Naming}

/-! ## Names -/

section Names

variable (source : String)

theorem failsOnly_entry : RejectsTruly declarations index roots (naming.entry source) := by
  unfold Naming.entry
  split
  · exact .ok _
  · exact .error trivial

theorem failsOnly_typeName : RejectsTruly declarations index roots (naming.typeName source) := by
  refine (failsOnly_entry source).bind fun entry _ => ?_
  dsimp only
  split
  · exact .pure _
  · split
    · exact .pure _
    · exact .throw trivial

theorem failsOnly_recordRef : RejectsTruly declarations index roots (naming.recordRef source) :=
  (failsOnly_entry source).bind fun _ _ => (failsOnly_typeName source).bind fun _ _ => .pure _

theorem failsOnly_coreName : RejectsTruly declarations index roots (naming.coreName source) := by
  unfold Naming.coreName
  split
  · exact .ok _
  · exact .error trivial

theorem failsOnly_functionName (role : FunctionRole) :
    RejectsTruly declarations index roots (naming.functionName role source) :=
  (failsOnly_coreName source).bind fun _ _ => .pure _

theorem failsOnly_parameterName :
    RejectsTruly declarations index roots (naming.parameterName source) :=
  (failsOnly_coreName source).bind fun _ _ => .pure _

end Names

theorem failsOnly_representation (member : Member) :
    RejectsTruly declarations index roots (naming.representation member) := by
  unfold Naming.representation
  split
  · exact .ok _
  · exact (failsOnly_recordRef _).map
  · exact .ok _

theorem failsOnly_packedType (entry : TypeEntry) :
    RejectsTruly declarations index roots (naming.packedType entry) := by
  refine (failsOnly_typeName _).bind fun _ _ => ?_
  refine (FailsOnly.mapM fun member _ => ?_).bind fun _ _ => .pure _
  refine FailsOnly.bind ?_ fun _ _ => .pure _
  unfold Naming.placement
  split
  · exact (failsOnly_representation member).map
  · exact (failsOnly_representation member).map

/-! ## Members -/

section Members

variable {owner : Outline} {declaration : Declaration} {field : Field}

/-- The member that an error names, from what it nests. -/
theorem nestingTrueOf_of_unsupported
    (hField : declarations.FieldIn roots owner.name declaration field)
    (hOverride : ¬ (Member.annotated naming.index owner.name field).typeOverride?.isSome = true)
    (hUnsupported : field.Unsupported declarations naming.index owner.name) :
    CompileError.NestingTrueOf declarations naming.index roots
      (.unsupportedNesting owner.name field.name) :=
  ⟨declaration, field, hField, rfl,
    fun spec hMem => hOverride (Member.isSome_typeOverride?_iff.2 ⟨spec, hMem⟩), hUnsupported⟩

/-- Members are those of the fields of the declaration. -/
theorem exists_field (hSound : naming.graph.Sound declarations naming.index roots)
    {entry : TypeEntry} (hEntry : entry ∈ naming.graph.entries)
    (hContained : declarations.Contained roots entry.name) {member : Member}
    (hMember : member ∈ entry.members) :
    ∃ declaration field, declarations.FieldIn roots entry.name declaration field ∧
      Member.annotated naming.index entry.name field = member := by
  obtain ⟨declaration, hGet, _, hMembers⟩ := hSound.declared entry hEntry
  rw [hMembers] at hMember
  obtain ⟨field, hField, rfl⟩ := List.mem_map.1 hMember
  exact ⟨declaration, field, ⟨hContained, hGet, hField⟩, rfl⟩

section Nested

variable {nested : TypeEntry} (hSound : naming.graph.Sound declarations naming.index roots)
  (hNested : naming.graph.nested? (Member.annotated naming.index owner.name field) = some nested)
include hSound hNested

/-- A marked type that a member names is variable-length. -/
theorem isVarLen_of_nested? (hVarLen : nested.varLen = true) :
    field.type.aggregateName? = some nested.name ∧
      declarations.IsVarLen naming.index nested.name := by
  obtain ⟨hMem, hName⟩ := TypeGraph.nested?_eq_some hNested
  exact ⟨hName, (hSound.varLen_iff_isVarLen hMem).1 hVarLen⟩

theorem isUnionTyped_of_nested? (hUnion : nested.isUnion = true) :
    ∃ union, declarations.IsUnionTyped field nested.name union := by
  obtain ⟨hMem, hName⟩ := TypeGraph.nested?_eq_some hNested
  obtain ⟨union, hGet, hKind, _⟩ := hSound.declared nested hMem
  exact ⟨union, hName, hGet, hKind.symm.trans (AggregateKind.isUnion_eq_true.1 hUnion)⟩

end Nested

variable (hSound : naming.graph.Sound declarations naming.index roots)
  (hField : declarations.FieldIn roots owner.name declaration field)
include hSound hField

/-- A copy is rejected for a fixed array of variable-length structures. -/
theorem failsOnly_copy :
    RejectsTruly declarations naming.index roots
      (naming.copy owner (Member.annotated naming.index owner.name field)) := by
  unfold Naming.copy
  dsimp only
  split
  · exact .ok _
  · rename_i hOverride
    split
    · exact .ok _
    · rename_i nested hNested
      split
      · exact .error trivial
      · refine (failsOnly_functionName _ _).bind fun _ _ => ?_
        split
        · exact .pure _
        · rename_i length hLength
          split
          · rename_i hVarLen
            obtain ⟨hName, hIs⟩ := isVarLen_of_nested? hSound hNested hVarLen
            exact .throw (nestingTrueOf_of_unsupported hField hOverride (.array hLength hName hIs))
          · exact .pure _

/-- A variable-length array is rejected if its elements are variable-length. -/
theorem failsOnly_varLenStep {lengthField : String}
    (hDirective : .varLenArray lengthField ∈ naming.index.lookup owner.name field.name)
    (hOverride : ¬ (Member.annotated naming.index owner.name field).typeOverride?.isSome = true) :
    RejectsTruly declarations naming.index roots
      (naming.varLenStep owner (Member.annotated naming.index owner.name field) lengthField) := by
  unfold Naming.varLenStep
  have hElement : RejectsTruly declarations naming.index roots
      (naming.representation (Member.annotated naming.index owner.name field)) :=
    failsOnly_representation _
  split
  · exact (FailsOnly.pure _).bind fun _ _ => hElement.bind fun _ _ => .pure _
  · rename_i nested hNested
    split
    · exact .throw trivial
    · split
      · rename_i hVarLen
        obtain ⟨hName, hIs⟩ := isVarLen_of_nested? hSound hNested hVarLen
        have hElements := Field.Unsupported.elements hDirective hName hIs
        exact .throw (nestingTrueOf_of_unsupported hField hOverride hElements)
      · refine (failsOnly_functionName _ _).bind fun _ _ => ?_
        exact (FailsOnly.pure _).bind fun _ _ => hElement.bind fun _ _ => .pure _

/-- A union with a discriminator is rejected if it is an array, or for one of its members. -/
theorem failsOnly_unionStep {discriminator : String} {mapping : List (Literal × String)}
    (hDirective : .unionVariant discriminator mapping ∈ naming.index.lookup owner.name field.name)
    (hOverride : ¬ (Member.annotated naming.index owner.name field).typeOverride?.isSome = true) :
    RejectsTruly declarations naming.index roots
      (naming.unionStep owner (Member.annotated naming.index owner.name field) discriminator
        mapping) := by
  unfold Naming.unionStep
  split
  · exact .error trivial
  · rename_i union hUnion
    obtain ⟨hNested, hKind⟩ := Option.filter_eq_some_iff.1 hUnion
    split
    · rename_i hArray
      obtain ⟨length, hLength⟩ := Option.isSome_iff_exists.1 hArray
      obtain ⟨body, hTyped⟩ := isUnionTyped_of_nested? hSound hNested hKind
      exact .error (nestingTrueOf_of_unsupported hField hOverride
        (.unionArray hLength hTyped hDirective))
    · refine FailsOnly.bind (FailsOnly.mapM fun pair _ => ?_) fun _ _ =>
        (failsOnly_recordRef _).bind fun _ _ => .pure _
      dsimp only
      unfold Naming.unionArm
      split
      · exact .error trivial
      · rename_i variant hVariant
        -- The arm copies a member of the union, which the roots contain as well.
        obtain ⟨hMem, hName⟩ := TypeGraph.nested?_eq_some hNested
        have hContained : declarations.Contained roots union.name :=
          .nested hField.contained hField.declared hField.mem hName
        obtain ⟨_, _, hInner, rfl⟩ :=
          exists_field hSound hMem hContained (List.mem_of_find?_eq_some hVariant)
        exact (failsOnly_copy hSound hInner).bind fun _ _ => .pure _

/-- The step of a member is rejected for what the member nests. -/
theorem failsOnly_step :
    RejectsTruly declarations naming.index roots
      (naming.step owner (Member.annotated naming.index owner.name field)) := by
  rw [Naming.step, Naming.stepOf_eq]
  split
  · exact .ok _
  · rename_i lengthField hDecisive
    have hDecides := List.find?_some hDecisive
    exact failsOnly_varLenStep hSound hField (List.mem_of_find?_eq_some hDecisive)
      (by simpa [Member.decides] using hDecides)
  · rename_i discriminator mapping hDecisive
    have hDecides := List.find?_some hDecisive
    exact failsOnly_unionStep hSound hField (List.mem_of_find?_eq_some hDecisive)
      (by simpa [Member.decides] using hDecides)
  · exact (failsOnly_copy hSound hField).map

/-- The term of a member is rejected for what the member nests. -/
theorem failsOnly_sizeTerm? :
    RejectsTruly declarations naming.index roots
      (naming.sizeTerm? owner (Member.annotated naming.index owner.name field)) := by
  unfold Naming.sizeTerm?
  dsimp only
  split
  · exact .ok _
  · rename_i hOverride
    split
    · rename_i lengthField nested hLength hFilter
      obtain ⟨hNested, hVarLen⟩ := Option.filter_eq_some_iff.1 hFilter
      obtain ⟨hName, hIs⟩ := isVarLen_of_nested? hSound hNested hVarLen
      obtain ⟨found, hDirective⟩ :=
        Member.isSome_lengthField?_iff.1 (Option.isSome_iff_exists.2 ⟨lengthField, hLength⟩)
      exact .error (nestingTrueOf_of_unsupported hField hOverride (.elements hDirective hName hIs))
    · exact (failsOnly_representation _).bind fun _ _ => .pure _
    · rename_i nested hLength hFilter
      obtain ⟨hNested, hVarLen⟩ := Option.filter_eq_some_iff.1 hFilter
      obtain ⟨hName, hIs⟩ := isVarLen_of_nested? hSound hNested hVarLen
      split
      · rename_i hShape
        refine .error (nestingTrueOf_of_unsupported hField hOverride ?_)
        rcases (Bool.or_eq_true _ _).mp hShape with hUnion | hArray
        · obtain ⟨body, hTyped⟩ := isUnionTyped_of_nested? hSound hNested hUnion
          exact .union hTyped hIs
        · obtain ⟨length, hSome⟩ := Option.isSome_iff_exists.1 hArray
          exact .array hSome hName hIs
      · exact (failsOnly_typeName _).bind fun _ _ => (failsOnly_functionName _ _).bind
          fun _ _ => .pure _
    · exact .ok _

end Members

/-- A term that calls a size function is for a member that names its type. -/
theorem nested?_of_sizeTerm? {owner : Outline} {member : Member} {term : SizeTerm}
    (h : naming.sizeTerm? owner member = .ok (some term)) {callee : String}
    (hCallee : callee? term = some callee) : member.nested? = some callee := by
  rcases sizeTerm?_eq_ok h with
    ⟨_, hNone⟩ | ⟨_, _, _, _, _, _, hSome⟩ | ⟨nested, _, _, _, _, hNested, _, _, _, hSome⟩
  · cases hNone
  · cases hSome
    cases hCallee
  · cases hSome
    cases hCallee
    exact (TypeGraph.nested?_eq_some hNested).2

/-! ## Passes -/

section Passes

variable (hSound : naming.graph.Sound declarations naming.index roots)
include hSound

/-- Encode functions are made for types that the roots contain. -/
theorem failsOnly_encodeFunctions :
    RejectsTruly declarations naming.index roots naming.encodeFunctions := by
  refine FailsOnly.mapM fun entry hEntry => ?_
  have hOrder := (List.mem_filter.1 hEntry).1
  have hMem := TypeGraph.entriesOf_subset hOrder
  have hContained := (hSound.mem_names_iff entry.name).1 ⟨entry, hOrder, rfl⟩
  refine (failsOnly_typeName _).bind fun _ _ => (failsOnly_functionName _ _).bind fun _ _ => ?_
  refine (FailsOnly.mapM fun member hMember => ?_).bind fun _ _ => .pure _
  obtain ⟨_, _, hField, rfl⟩ := exists_field hSound hMem hContained hMember
  exact failsOnly_step hSound hField

theorem failsOnly_sizeTermsOf {source : String} (hContained : declarations.Contained roots source) :
    RejectsTruly declarations naming.index roots (naming.sizeTermsOf source) := by
  refine (failsOnly_entry source).bind fun entry hEntry => ?_
  obtain ⟨hMem, rfl⟩ := hSound.find?_eq_some.1 (Naming.entry_eq_ok.1 hEntry)
  refine (FailsOnly.mapM fun member hMember => ?_).bind fun _ _ => .pure _
  obtain ⟨_, _, hField, rfl⟩ := exists_field hSound hMem hContained hMember
  exact failsOnly_sizeTerm? hSound hField

/-- The search for size functions stays with what the roots contain. -/
theorem closed_sizeSearch : naming.sizeSearch.Closed (declarations.Contained roots) := by
  intro source terms next hContained hVisit callee hCallee
  obtain ⟨hTerms, rfl⟩ := Compiled.sizeTermsOf_of_visit hVisit
  obtain ⟨entry, hEntry, hAdded⟩ := bind_eq_ok.1 hTerms
  obtain ⟨hMem, rfl⟩ := hSound.find?_eq_some.1 (Naming.entry_eq_ok.1 hEntry)
  obtain ⟨term, hTerm, hCalled⟩ := List.mem_filterMap.1 hCallee
  obtain ⟨member, hMember, hAdds⟩ := Naming.exists_counted_member hAdded hTerm
  obtain ⟨_, _, hField, rfl⟩ := exists_field hSound hMem hContained hMember
  exact .nested hContained hField.declared hField.mem (nested?_of_sizeTerm? hAdds hCalled)

theorem failsOnly_sizeFunctions :
    RejectsTruly declarations naming.index roots naming.sizeFunctions := by
  refine FailsOnly.bind (fun e hError => ?_) fun found _ => FailsOnly.mapM fun pair _ => ?_
  · have hStarts : ∀ name ∈ (naming.graph.rootEntries.filter TypeEntry.varLen).map
        (fun entry => entry.name), declarations.Contained roots name := by
      intro name hName
      obtain ⟨entry, hEntry, rfl⟩ := List.mem_map.1 hName
      refine .root ?_
      rw [← hSound.rootEntries_names]
      exact List.mem_map_of_mem (List.mem_of_mem_filter hEntry)
    obtain ⟨source, hContained, hVisit⟩ :=
      Worklist.run_error hError (closed_sizeSearch hSound) hStarts
    refine failsOnly_sizeTermsOf hSound hContained e ?_
    unfold Naming.sizeSearch at hVisit
    dsimp only at hVisit
    split at hVisit
    · cases hVisit
    · rename_i hTerms
      cases hVisit
      exact hTerms
  · exact (failsOnly_typeName _).bind fun _ _ => (failsOnly_functionName _ _).bind fun _ _ =>
      (failsOnly_parameterName _).bind fun _ _ => .pure _

end Passes

theorem failsOnly_entryPoint (entry : TypeEntry) :
    RejectsTruly declarations index roots (naming.entryPoint entry) := by
  unfold Naming.entryPoint
  dsimp only
  split
  · refine (failsOnly_functionName _ _).map.bind fun _ _ => ?_
    exact (failsOnly_typeName _).bind fun _ _ => (failsOnly_functionName _ _).bind fun _ _ =>
      (failsOnly_functionName _ _).bind fun _ _ => .pure _
  · refine (FailsOnly.pure _).bind fun _ _ => ?_
    exact (failsOnly_typeName _).bind fun _ _ => (failsOnly_functionName _ _).bind fun _ _ =>
      (failsOnly_functionName _ _).bind fun _ _ => .pure _

end Naming

/-- **Rejected nesting**: whatever compiling fails with, a member that it rejects for what it
nests is one that is not supported. -/
theorem failsOnly_compile {declarations : Declarations} {index : DirectiveIndex}
    {settings : Settings} {request : Request} :
    RejectsTruly declarations index request.roots
      (compile declarations index settings request) := by
  refine FailsOnly.bind ?_ fun graph hBuild => ?_
  · exact fun e hError => (TypeGraph.failsOnly_build e hError).nestingTrueOf
  · have hSound := TypeGraph.sound_of_build hBuild
    unfold programOf
    split
    · exact .error trivial
    · let naming := Naming.forService graph index settings request.service
      have hNaming : naming.graph.Sound declarations naming.index request.roots := hSound
      refine FailsOnly.bind (FailsOnly.mapM fun _ _ => Naming.failsOnly_packedType _) fun _ _ => ?_
      refine FailsOnly.bind (Naming.failsOnly_sizeFunctions hNaming) fun _ _ => ?_
      refine FailsOnly.bind (Naming.failsOnly_encodeFunctions hNaming) fun _ _ => ?_
      refine FailsOnly.bind ?_ fun _ _ => .pure _
      exact FailsOnly.mapM fun _ _ => Naming.failsOnly_entryPoint _

end WireSchema
