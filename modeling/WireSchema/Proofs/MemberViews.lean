import WireSchema.Proofs.BoundedCompile
import WireSchema.Proofs.CompiledProgram

/-!
# The three views of a member

A member of a packed structure is seen three times: as a place in the packed type, as
the step that encodes it, and in the terms of the size function.  The views agree if the
step is one for a place of that kind and the size function counts what the step stores
in the payload.

They are made by separate passes, which do not ask the same directives.  The step
follows the first directive on encoding; the place and the term ask whether there is a
`varLenArray` at all, and nobody asks whether it is on a fixed array.
`Member.Coherent` says when these answers are the same.

## Main results

* `views_agree_iff_coherent`: the views of a member agree exactly if it is coherent.
* `Compiled.coherent_or_constant`: if variable-length arrays are encoded as such, a member is
  coherent, but for a constant in the place of a record.
* `Compiled.arm_fits`: the copies of a union of fixed size fit its members.
-/

namespace WireSchema

/-! ## Agreement -/

/-- A copy fills places of the given representation and array length. -/
def Copy.Fits (copy : Copy) (representation : Representation) (arrayLength : Option Nat) : Prop :=
  match copy, representation with
  | .scalar, .primitive _ => arrayLength = none
  | .array length, .primitive _ => arrayLength = some length
  | .record source _ _, .record ref => ref.source = source ∧ arrayLength = none
  | .recordArray source _ length, .record ref => ref.source = source ∧ arrayLength = some length
  | _, _ => False

/-- A step is one for the place of a packed member. -/
def Step.Fits (program : Program) (packed : PackedMember) : Step → Prop
  | .fixedScalar .. =>
    ∃ spec, packed.placement = .value (.primitive spec) ∧ packed.arrayLength = none
  | .fixedFill .. =>
    ∃ representation length, packed.placement = .value representation ∧
      packed.arrayLength = some length
  | .assign _ copy =>
    ∃ representation, packed.placement = .value representation ∧
      copy.Fits representation packed.arrayLength
  | .varLen _ _ element copy =>
    packed.placement = .descriptor element ∧ packed.arrayLength = none ∧ copy.Fits element none
  | .union _ record _ arms =>
    packed.placement = .value (.record record) ∧ packed.arrayLength = none ∧
      record.kind = .union ∧ ∃ union ∈ program.types, union.source = record.source ∧
        union.kind = .union ∧ ∀ arm ∈ arms, ∃ variant ∈ union.members, variant.name = arm.member

/-- The terms of a size function count what a step stores in the payload. -/
def Step.CountedIn (terms : List SizeTerm) (step : Step) : Prop :=
  (∀ lengthField element, .varLen step.field lengthField element ∈ terms ↔
    ∃ copy, step = .varLen step.field lengthField element copy) ∧
  ∀ source, (∃ target function, .nested step.field source target function ∈ terms) ↔
    ∃ function, step = .assign step.field (.record source function true)

/-- A step is counted as what the size computation made of its member. -/
def Step.CountedAs (part : Option SizeTerm) (step : Step) : Prop :=
  (∀ lengthField element, part = some (.varLen step.field lengthField element) ↔
    ∃ copy, step = .varLen step.field lengthField element copy) ∧
  ∀ source, (∃ target function, part = some (.nested step.field source target function)) ↔
    ∃ function, step = .assign step.field (.record source function true)

/-- The place of a member, its step and its part in the encoded size agree. -/
def Program.ViewsAgree (program : Program) (source : String) (packed : PackedMember)
    (step : Step) : Prop :=
  step.field = packed.name ∧ step.Fits program packed ∧
    ∀ sizes ∈ program.sizeFunctions, sizes.source = source → step.CountedIn sizes.terms

/-- The directives of a member, its declarator and its type lead to views that agree. -/
def Member.Coherent (member : Member) : Prop :=
  member.typeOverride? = none →
    match member.lengthField? with
    | some lengthField =>
      member.arrayLength? = none ∧ member.decisive? = some (.varLenArray lengthField)
    | none =>
      ∀ value, member.decisive? = some (.fixedValue value) →
        member.arrayLength? = none → member.nested? = none

/-- The member is no variable-length array, or it is plain and has no other directive on
encoding. -/
def Member.Unmixed (member : Member) : Prop :=
  member.typeOverride? = none → member.lengthField? ≠ none →
    member.arrayLength? = none ∧ ∀ directive ∈ member.directives,
      directive.kind ≠ .fixedValue ∧ directive.kind ≠ .unionVariant

/-- A variable-length array is plain, and its `varLenArray` is the directive that it is encoded
by. -/
def Member.Decided (member : Member) : Prop :=
  member.typeOverride? = none → ∀ lengthField, member.lengthField? = some lengthField →
    member.arrayLength? = none ∧ member.decisive? = some (.varLenArray lengthField)

/-- The fields of every type of the program have distinct names. -/
def Program.DistinctFields (program : Program) (declarations : Declarations) : Prop :=
  ∀ type ∈ program.types, ∀ declaration ∈ declarations.get? type.source,
    (declaration.fields.map Field.name).Nodup

/-- No member of the program has mixed directives. -/
def Program.Unmixed (program : Program) (declarations : Declarations) (index : DirectiveIndex) :
    Prop :=
  ∀ type ∈ program.types, ∀ declaration ∈ declarations.get? type.source,
    ∀ member ∈ declaration.members index type.source, member.Unmixed

/-- Every variable-length array of the program is encoded as one. -/
def Program.Decided (program : Program) (declarations : Declarations) (index : DirectiveIndex) :
    Prop :=
  ∀ type ∈ program.types, ∀ declaration ∈ declarations.get? type.source,
    ∀ member ∈ declaration.members index type.source, member.Decided

/-- The term counts the member of this name. -/
def SizeTerm.field : SizeTerm → String
  | varLen field _ _ => field
  | nested field _ _ _ => field

/-! ## The decisive directive -/

namespace Member

variable {member : Member}

/-- A decisive `varLenArray` is the first one. -/
theorem lengthField?_of_decisive? {lengthField : String}
    (h : member.decisive? = some (.varLenArray lengthField)) :
    member.lengthField? = some lengthField := by
  have hOverride : member.typeOverride? = none := by
    simpa [Member.decides] using List.find?_some h
  obtain ⟨front, back, hSplit, hFirst⟩ := (List.find?_eq_some_iff_append.1 h).2
  refine List.findSome?_eq_some_iff.2 ⟨front, _, back, hSplit, rfl, fun directive hMem => ?_⟩
  have hNot := hFirst directive hMem
  cases directive <;> simp_all [Member.decides]

/-- A member that is described as a variable-length array has a decisive directive. -/
theorem decisive?_ne_none (hOverride : member.typeOverride? = none)
    (hLength : member.lengthField? ≠ none) : member.decisive? ≠ none := by
  intro hNone
  obtain ⟨lengthField, hSome⟩ := Option.ne_none_iff_exists'.1 hLength
  obtain ⟨directive, hMem, hIs⟩ := List.exists_of_findSome?_eq_some hSome
  have hNot := List.find?_eq_none.1 hNone directive hMem
  cases directive <;> simp_all [Member.decides]

/-- Without mixed directives, a variable-length array is encoded as one. -/
theorem Unmixed.decided (h : member.Unmixed) : member.Decided := by
  intro hOverride lengthField hLength
  obtain ⟨hPlain, hPure⟩ := h hOverride (by simp [hLength])
  refine ⟨hPlain, ?_⟩
  obtain ⟨directive, hDecisive⟩ :=
    Option.ne_none_iff_exists'.1 (decisive?_ne_none hOverride (by simp [hLength]))
  have hDecides := List.find?_some hDecisive
  obtain ⟨hNotFixed, hNotUnion⟩ := hPure directive (List.mem_of_find?_eq_some hDecisive)
  cases directive with
  | varLenArray other =>
      have hOther := lengthField?_of_decisive? hDecisive
      rw [hLength] at hOther
      rw [hDecisive, Option.some.inj hOther]
  | fixedValue value => exact absurd rfl hNotFixed
  | unionVariant discriminator mapping => exact absurd rfl hNotUnion
  | renameType name => cases hDecides
  | overrideType spec => cases hDecides
  | enumeration typeName => cases hDecides

end Member

theorem Program.Unmixed.decided {program : Program} {declarations : Declarations}
    {index : DirectiveIndex} (h : program.Unmixed declarations index) :
    program.Decided declarations index :=
  fun type hType declaration hGet member hMember =>
    (h type hType declaration hGet member hMember).decided

/-! ## A step and its place -/

section Compiled

variable {declarations : Declarations} {request : Request} {naming : Naming} {program : Program}

namespace Compiled

/-- What a member of the graph names is in the graph. -/
theorem nested?_eq_some (h : Compiled declarations request naming program) {entry : TypeEntry}
    (hEntry : entry ∈ naming.graph.entries) {member : Member} (hMember : member ∈ entry.members)
    {name : String} (hName : member.nested? = some name) :
    ∃ nested ∈ naming.graph.entries, naming.graph.nested? member = some nested ∧
      nested.name = name := by
  obtain ⟨nested, hNested, rfl⟩ :=
    h.sound.nested entry hEntry name (List.mem_filterMap.2 ⟨member, hMember, hName⟩)
  refine ⟨nested, hNested, ?_, rfl⟩
  rw [TypeGraph.nested?, hName]
  exact h.sound.find?_eq_some.2 ⟨hNested, rfl⟩

end Compiled

theorem TypeGraph.nested?_eq_some {graph : TypeGraph} {member : Member} {nested : TypeEntry}
    (h : graph.nested? member = some nested) :
    nested ∈ graph.entries ∧ member.nested? = some nested.name := by
  obtain ⟨name, hName, hFind⟩ := Option.bind_eq_some_iff.1 h
  have hSame := List.find?_some hFind
  exact ⟨List.mem_of_find?_eq_some hFind, by rw [hName, eq_of_beq hSame]⟩

namespace Compiled

/-- What is copied fits what the member is represented as. -/
theorem copy_fits (h : Compiled declarations request naming program) {entry : TypeEntry}
    (hEntry : entry ∈ naming.graph.entries) {member : Member} (hMember : member ∈ entry.members)
    {copy : Copy} (hCopy : naming.copy entry.toOutline member = .ok copy)
    {representation : Representation}
    (hRepresentation : naming.representation member = .ok representation) :
    copy.Fits representation member.arrayLength? := by
  have hPrimitive : ∀ spec, member.primitiveCopy.Fits (.primitive spec) member.arrayLength? := by
    intro spec
    unfold Member.primitiveCopy
    cases member.arrayLength? <;> rfl
  rcases Naming.representation_eq_ok hRepresentation with
    ⟨spec, hOverride, rfl⟩ | ⟨name, ref, hOverride, hName, hRef, rfl⟩ | ⟨hOverride, hNone, rfl⟩
  · rcases Naming.copy_eq_ok hCopy with ⟨_, rfl⟩ | ⟨_, _, hNoOverride, _⟩
    · exact hPrimitive spec
    · rw [hOverride] at hNoOverride
      cases hNoOverride
  · obtain ⟨nested, _, hNested, rfl⟩ := h.nested?_eq_some hEntry hMember hName
    obtain ⟨hSource, _⟩ := Naming.recordRef_eq_ok hRef
    rcases Naming.copy_eq_ok hCopy with
      ⟨hNo | hNo, _⟩ | ⟨other, function, _, hOther, _, ⟨hLength, rfl⟩ | ⟨length, hLength, _, rfl⟩⟩
    · exact absurd hOverride hNo
    · rw [hNested] at hNo
      cases hNo
    · rw [hNested] at hOther
      cases hOther
      exact ⟨hSource, hLength⟩
    · rw [hNested] at hOther
      cases hOther
      exact ⟨hSource, hLength⟩
  · rcases Naming.copy_eq_ok hCopy with ⟨_, rfl⟩ | ⟨nested, _, _, hNested, _⟩
    · exact hPrimitive _
    · rw [TypeGraph.nested?, hNone] at hNested
      cases hNested

/-- The copy of an arm fits the member of the union, if the union has a fixed size. -/
theorem arm_fits (h : Compiled declarations request naming program) {union : TypeEntry}
    (hUnion : union ∈ naming.graph.entries) (hFixed : union.varLen = false) {value : Literal}
    {target : String} {arm : UnionArm}
    (hArm : naming.unionArm union.toOutline value target = .ok arm) {type : PackedType}
    (hType : naming.packedType union = .ok type) :
    ∃ variant ∈ type.members, variant.name = arm.member ∧
      ∃ representation, variant.placement = .value representation ∧
        arm.copy.Fits representation variant.arrayLength := by
  obtain ⟨member, copy, hMember, hCopy, rfl⟩ := Naming.unionArm_eq_ok hArm
  have hName := List.find?_some hMember
  have hMem := List.mem_of_find?_eq_some hMember
  obtain ⟨_, _, hMembers⟩ := Naming.packedType_eq_ok hType
  obtain ⟨variant, hVariant, hPacked⟩ := exists_right_of_mem hMembers hMem
  obtain ⟨hSame, hLength, representation, hRepresentation, hPlacement⟩ :=
    Naming.packedMember_eq_ok hPacked
  have hPlain : member.isDescribed = false := by
    have hNot := (not_congr (h.sound.varLen_iff union hUnion)).1 (by simp [hFixed])
    rw [not_or, Outline.hasVarLenMember, List.any_eq_true, not_exists] at hNot
    have hNone := hNot.1 member
    simp only [hMem, true_and] at hNone
    simp [Member.isDescribed, hNone]
  rw [if_neg (by simp [hPlain])] at hPlacement
  refine ⟨variant, hVariant, by rw [hSame]; exact eq_of_beq hName, representation, hPlacement, ?_⟩
  rw [hLength]
  exact h.copy_fits hUnion hMem hCopy hRepresentation

section Member

variable {entry : TypeEntry} {member : Member} {packed : PackedMember} {step : Step}

/-- The union in a step is one of the program, and the arms name its members. -/
theorem union_fits (h : Compiled declarations request naming program)
    (hEntry : entry ∈ naming.graph.entriesOf (naming.graph.postOrder naming.graph.roots))
    (hMember : member ∈ entry.members) {discriminator : String}
    {mapping : List (Literal × String)}
    (hStep : naming.unionStep entry.toOutline member discriminator mapping = .ok step)
    (hPacked : naming.packedMember member = .ok packed) (hOverride : member.typeOverride? = none)
    (hLength : member.lengthField? = none) : step.Fits program packed := by
  obtain ⟨union, record, arms, hNested, hKind, hPlain, hRecord, hArms, rfl⟩ :=
    Naming.unionStep_eq_ok hStep
  obtain ⟨_, hArray, representation, hRepresentation, hPlacement⟩ :=
    Naming.packedMember_eq_ok hPacked
  obtain ⟨hUnion, hName⟩ := TypeGraph.nested?_eq_some hNested
  have hOrder := (h.sound.enumeration_postOrder _).nested_mem hEntry hUnion
    (List.mem_filterMap.2 ⟨member, hMember, hName⟩)
  obtain ⟨type, hType, hMade⟩ := h.exists_type hOrder
  obtain ⟨hSource, hTypeKind, hMembers⟩ := Naming.packedType_eq_ok hMade
  obtain ⟨hRef, same, hSame, hRefKind⟩ := Naming.recordRef_eq_ok hRecord
  obtain rfl := Option.some.inj (hSame.symm.trans (h.sound.find?_eq_some.2 ⟨hUnion, rfl⟩))
  have hIsUnion : same.kind = .union := AggregateKind.isUnion_eq_true.1 hKind
  refine ⟨?_, by rw [hArray, hPlain], hRefKind.trans hIsUnion, type, hType, hSource.trans hRef.symm,
    hTypeKind.trans hIsUnion, fun arm hArm => ?_⟩
  · rw [hPlacement, if_neg (by simp [Member.isDescribed, hLength])]
    rcases Naming.representation_eq_ok hRepresentation with
      ⟨_, hSome, _⟩ | ⟨name, ref, _, hNamed, hMade, rfl⟩ | ⟨_, hNone, _⟩
    · rw [hOverride] at hSome
      cases hSome
    · rw [hName] at hNamed
      cases hNamed
      rw [hRecord] at hMade
      cases hMade
      rfl
    · rw [hName] at hNone
      cases hNone
  · obtain ⟨pair, _, hMade⟩ := exists_left_of_mem hArms hArm
    obtain ⟨variant, copy, hVariant, _, rfl⟩ := Naming.unionArm_eq_ok hMade
    obtain ⟨place, hPlace, hPacks⟩ :=
      exists_right_of_mem hMembers (List.mem_of_find?_eq_some hVariant)
    have hTarget := List.find?_some hVariant
    refine ⟨place, hPlace, ?_⟩
    rw [(Naming.packedMember_eq_ok hPacks).1]
    exact eq_of_beq hTarget

/-- A step of a variable-length array fits, if the array has no declarator of its own. -/
theorem varLen_fits (h : Compiled declarations request naming program)
    (hEntry : entry ∈ naming.graph.entries) (hMember : member ∈ entry.members)
    {lengthField : String}
    (hStep : naming.varLenStep entry.toOutline member lengthField = .ok step)
    (hPacked : naming.packedMember member = .ok packed) (hOverride : member.typeOverride? = none)
    (hLength : member.lengthField? = some lengthField) (hPlain : member.arrayLength? = none) :
    step.Fits program packed := by
  obtain ⟨element, copy, hElement, rfl, hCopy⟩ := Naming.varLenStep_eq_ok hStep
  obtain ⟨_, hArray, representation, hRepresentation, hPlacement⟩ :=
    Naming.packedMember_eq_ok hPacked
  rw [hElement] at hRepresentation
  cases hRepresentation
  rw [if_pos (by simp [Member.isDescribed, hOverride, hLength])] at hPlacement
  refine ⟨hPlacement, by rw [hArray, hPlain], ?_⟩
  rcases Naming.representation_eq_ok hElement with
    ⟨_, hSome, _⟩ | ⟨name, ref, _, hName, hRef, rfl⟩ | ⟨_, hNone, rfl⟩
  · rw [hOverride] at hSome
    cases hSome
  · obtain ⟨nested, _, hNested, rfl⟩ := h.nested?_eq_some hEntry hMember hName
    rcases hCopy with ⟨hNo, _⟩ | ⟨other, function, hOther, _, _, rfl⟩
    · rw [hNested] at hNo
      cases hNo
    · rw [hNested] at hOther
      cases hOther
      exact ⟨(Naming.recordRef_eq_ok hRef).1, rfl⟩
  · rcases hCopy with ⟨_, rfl⟩ | ⟨other, _, hOther, _⟩
    · rfl
    · rw [TypeGraph.nested?, hNone] at hOther
      cases hOther

/-- The place of a member that is not described as a variable-length array. -/
private theorem placement_of_not_isDescribed (hPacked : naming.packedMember member = .ok packed)
    (hPlain : member.typeOverride? = none → member.lengthField? = none) :
    packed.arrayLength = member.arrayLength? ∧
      ∃ representation, naming.representation member = .ok representation ∧
        packed.placement = .value representation := by
  obtain ⟨_, hArray, representation, hRepresentation, hPlacement⟩ :=
    Naming.packedMember_eq_ok hPacked
  refine ⟨hArray, representation, hRepresentation, ?_⟩
  rw [hPlacement, if_neg]
  cases hOverride : member.typeOverride? with
  | none => simp [Member.isDescribed, hPlain hOverride]
  | some spec => simp [Member.isDescribed, hOverride]

/-- The step of a coherent member is one for its place. -/
theorem fits_of_coherent (h : Compiled declarations request naming program)
    (hEntry : entry ∈ naming.graph.entriesOf (naming.graph.postOrder naming.graph.roots))
    (hMember : member ∈ entry.members) (hStep : naming.step entry.toOutline member = .ok step)
    (hPacked : naming.packedMember member = .ok packed) (hCoherent : member.Coherent) :
    step.Fits program packed := by
  have hGraph := TypeGraph.entriesOf_subset hEntry
  -- A coherent member with another decisive directive is not described as an array.
  have hNotVarLen : (∀ lengthField, member.decisive? ≠ some (.varLenArray lengthField)) →
      member.typeOverride? = none → member.lengthField? = none := by
    intro hOther hOverride
    have hViews := hCoherent hOverride
    cases hLength : member.lengthField? with
    | none => rfl
    | some lengthField =>
        rw [hLength] at hViews
        exact absurd hViews.2 (hOther lengthField)
  rcases Naming.step_eq_ok hStep with
    ⟨hDecisive, copy, hCopy, rfl⟩ | ⟨value, hDecisive, rfl⟩ |
      ⟨lengthField, hDecisive, hOverride, hVarLen⟩ |
      ⟨discriminator, mapping, hDecisive, hOverride, hUnion⟩
  · obtain ⟨hArray, representation, hRepresentation, hPlacement⟩ :=
      placement_of_not_isDescribed hPacked (hNotVarLen (by simp [hDecisive]))
    exact ⟨representation, hPlacement, hArray ▸ h.copy_fits hGraph hMember hCopy hRepresentation⟩
  · have hPlain := hNotVarLen (by simp [hDecisive])
    obtain ⟨hArray, representation, hRepresentation, hPlacement⟩ :=
      placement_of_not_isDescribed hPacked hPlain
    unfold Naming.fixedStep
    cases hLength : member.arrayLength? with
    | some length =>
        rw [if_pos (by simp)]
        exact ⟨representation, length, hPlacement, hArray.trans hLength⟩
    | none =>
        rw [if_neg (by simp)]
        rcases Naming.representation_eq_ok hRepresentation with
          ⟨spec, _, rfl⟩ | ⟨name, _, hOverride, hName, _, _⟩ | ⟨_, _, rfl⟩
        · exact ⟨spec, hPlacement, hArray.trans hLength⟩
        · have hViews := hCoherent hOverride
          rw [hPlain hOverride] at hViews
          rw [hViews value hDecisive hLength] at hName
          cases hName
        · exact ⟨_, hPlacement, hArray.trans hLength⟩
  · have hLength := Member.lengthField?_of_decisive? hDecisive
    have hViews := hCoherent hOverride
    rw [hLength] at hViews
    exact h.varLen_fits hGraph hMember hVarLen hPacked hOverride hLength hViews.1
  · exact h.union_fits hEntry hMember hUnion hPacked hOverride
      (hNotVarLen (by simp [hDecisive]) hOverride)

/-- A member that names an aggregate is represented by a record. -/
theorem record_of_nested {representation : Representation}
    (h : naming.representation member = .ok representation)
    (hOverride : member.typeOverride? = none) (hNested : member.nested? ≠ none) :
    ∃ ref, representation = .record ref := by
  rcases Naming.representation_eq_ok h with ⟨_, hSome, _⟩ | ⟨_, ref, _, _, _, rfl⟩ | ⟨_, hNone, _⟩
  · rw [hOverride] at hSome
    cases hSome
  · exact ⟨ref, rfl⟩
  · exact absurd hNone hNested

/-- A member whose step is one for its place is coherent. -/
theorem coherent_of_fits (hStep : naming.step entry.toOutline member = .ok step)
    (hPacked : naming.packedMember member = .ok packed) (hFits : step.Fits program packed) :
    member.Coherent := by
  intro hOverride
  obtain ⟨_, hArray, representation, hRepresentation, hPlacement⟩ :=
    Naming.packedMember_eq_ok hPacked
  cases hLength : member.lengthField? with
  | some lengthField =>
      rw [if_pos (by simp [Member.isDescribed, hOverride, hLength])] at hPlacement
      rcases Naming.step_eq_ok hStep with
        ⟨hDecisive, _⟩ | ⟨value, _, rfl⟩ | ⟨other, hDecisive, _, hVarLen⟩ | ⟨_, _, _, _, hUnion⟩
      · exact absurd hDecisive (Member.decisive?_ne_none hOverride (by simp [hLength]))
      · rcases Naming.fixedStep_cases member value with hFixed | hFixed
        · rw [hFixed] at hFits
          obtain ⟨_, _, hValue, _⟩ := hFits
          rw [hPlacement] at hValue
          cases hValue
        · rw [hFixed] at hFits
          obtain ⟨_, hValue, _⟩ := hFits
          rw [hPlacement] at hValue
          cases hValue
      · have hSame := Member.lengthField?_of_decisive? hDecisive
        rw [hLength] at hSame
        obtain ⟨element, copy, _, rfl, _⟩ := Naming.varLenStep_eq_ok hVarLen
        exact ⟨hArray ▸ hFits.2.1, Option.some.inj hSame ▸ hDecisive⟩
      · obtain ⟨_, _, _, _, _, _, _, _, rfl⟩ := Naming.unionStep_eq_ok hUnion
        have hValue := hFits.1
        rw [hPlacement] at hValue
        cases hValue
  | none =>
      intro value hDecisive hPlain
      by_contra hNested
      rw [if_neg (by simp [Member.isDescribed, hLength])] at hPlacement
      obtain ⟨ref, rfl⟩ := record_of_nested hRepresentation hOverride hNested
      rw [Naming.step_of_fixedValue hDecisive hStep, Naming.fixedStep,
        if_neg (by simp [hPlain])] at hFits
      obtain ⟨spec, hValue, _⟩ := hFits
      rw [hPlacement] at hValue
      cases hValue

/-- If variable-length arrays are encoded as such, a member is coherent or a constant stands
where its record is. -/
theorem coherent_or_constant (hStep : naming.step entry.toOutline member = .ok step)
    (hPacked : naming.packedMember member = .ok packed) (hDecided : member.Decided) :
    member.Coherent ∨
      ∃ field value ref, step = .fixedScalar field value ∧
        packed.placement = .value (.record ref) ∧ packed.arrayLength = none := by
  by_cases hCoherent : member.Coherent
  · exact .inl hCoherent
  · obtain ⟨hOverride, hViews⟩ := Classical.not_imp.1 hCoherent
    cases hLength : member.lengthField? with
    | some lengthField =>
        rw [hLength] at hViews
        exact absurd (hDecided hOverride lengthField hLength) hViews
    | none =>
        rw [hLength] at hViews
        obtain ⟨value, hValue⟩ := not_forall.1 hViews
        obtain ⟨hDecisive, hRest⟩ := Classical.not_imp.1 hValue
        obtain ⟨hPlain, hNested⟩ := Classical.not_imp.1 hRest
        obtain ⟨hArray, representation, hRepresentation, hPlacement⟩ :=
          placement_of_not_isDescribed hPacked fun _ => hLength
        obtain ⟨ref, rfl⟩ := record_of_nested hRepresentation hOverride hNested
        refine .inr ⟨member.name, value, ref, ?_, hPlacement, hArray.trans hPlain⟩
        rw [Naming.step_of_fixedValue hDecisive hStep]
        exact if_neg (by simp [hPlain])

/-! ## A step and its term -/

section Counting

variable {part : Option SizeTerm}

/-- A member with a copy is counted if the copy passes the payload on. -/
theorem countedAs_assign (hDecisive : member.decisive? = none) {copy : Copy}
    (hCopy : naming.copy entry.toOutline member = .ok copy)
    (hPart : naming.sizeTerm? entry.toOutline member = .ok part) :
    (Step.assign member.name copy).CountedAs part := by
  rcases Naming.sizeTerm?_eq_ok hPart with
    ⟨hNone, rfl⟩ | ⟨lengthField, _, hOverride, hLength, _⟩ |
      ⟨nested, target, function, hOverride, _, hNested, hVarLen, _, hPlain, rfl⟩
  · refine ⟨by simp, fun source => iff_of_false (by simp) ?_⟩
    rintro ⟨function, hEq⟩
    obtain ⟨_, hEq⟩ := Step.assign.inj hEq
    rcases Naming.copy_eq_ok hCopy with
      ⟨_, rfl⟩ | ⟨nested, _, hOverride, hNested, _, ⟨_, rfl⟩ | ⟨_, _, _, rfl⟩⟩
    · unfold Member.primitiveCopy at hEq
      split at hEq <;> cases hEq
    · rcases hNone with hSome | ⟨_, hFixed⟩
      · exact hSome hOverride
      · simp only [Copy.record.injEq] at hEq
        simp [hNested, Option.filter, hEq.2.2] at hFixed
    · cases hEq
  · exact absurd hDecisive (Member.decisive?_ne_none hOverride (by simp [hLength]))
  · rcases Naming.copy_eq_ok hCopy with
      ⟨hNo | hNo, _⟩ | ⟨other, name, _, hOther, _, ⟨_, rfl⟩ | ⟨_, hLength, _⟩⟩
    · exact absurd hOverride hNo
    · rw [hNested] at hNo
      cases hNo
    · rw [hNested] at hOther
      cases hOther
      simp [Step.CountedAs, Step.field, hVarLen]
    · rw [hPlain] at hLength
      cases hLength

/-- A constant is not counted: a coherent member with a constant is no variable-length array
and no aggregate. -/
theorem countedAs_fixedStep {value : Literal}
    (hDecisive : member.decisive? = some (.fixedValue value)) (hCoherent : member.Coherent)
    (hPart : naming.sizeTerm? entry.toOutline member = .ok part) :
    (Naming.fixedStep member value).CountedAs part := by
  rcases Naming.sizeTerm?_eq_ok hPart with
    ⟨_, rfl⟩ | ⟨lengthField, _, hOverride, hLength, _⟩ |
      ⟨nested, _, _, hOverride, hLength, hNested, _, _, hPlain, rfl⟩
  · rcases Naming.fixedStep_cases member value with hFixed | hFixed <;>
      simp [hFixed, Step.CountedAs]
  · have hViews := hCoherent hOverride
    rw [hLength, hDecisive] at hViews
    cases hViews.2
  · have hViews := hCoherent hOverride
    rw [hLength] at hViews
    rw [TypeGraph.nested?, hViews value hDecisive hPlain] at hNested
    cases hNested

/-- A variable-length array is counted as one, with the same element. -/
theorem countedAs_varLenStep {lengthField : String} (hOverride : member.typeOverride? = none)
    (hLength : member.lengthField? = some lengthField)
    (hStep : naming.varLenStep entry.toOutline member lengthField = .ok step)
    (hPart : naming.sizeTerm? entry.toOutline member = .ok part) : step.CountedAs part := by
  obtain ⟨element, copy, hElement, rfl, _⟩ := Naming.varLenStep_eq_ok hStep
  rcases Naming.sizeTerm?_eq_ok hPart with
    ⟨hNo | ⟨hNo, _⟩, _⟩ | ⟨same, other, _, hSame, _, hOther, rfl⟩ | ⟨_, _, _, _, hNo, _⟩
  · exact absurd hOverride hNo
  · rw [hLength] at hNo
    cases hNo
  · rw [hLength] at hSame
    rw [hElement] at hOther
    cases hSame
    cases hOther
    simp [Step.CountedAs, Step.field]
  · rw [hLength] at hNo
    cases hNo

/-- A union is not counted: it is no variable-length array, and terms are for structures. -/
theorem countedAs_unionStep {discriminator : String} {mapping : List (Literal × String)}
    (hPlain : member.typeOverride? = none → member.lengthField? = none)
    (hStep : naming.unionStep entry.toOutline member discriminator mapping = .ok step)
    (hPart : naming.sizeTerm? entry.toOutline member = .ok part) : step.CountedAs part := by
  obtain ⟨union, record, arms, hNested, hKind, _, _, _, rfl⟩ := Naming.unionStep_eq_ok hStep
  rcases Naming.sizeTerm?_eq_ok hPart with
    ⟨_, rfl⟩ | ⟨lengthField, _, hOverride, hLength, _⟩ | ⟨other, _, _, _, _, hOther, _, hStruct, _⟩
  · simp [Step.CountedAs]
  · rw [hPlain hOverride] at hLength
    cases hLength
  · rw [hNested] at hOther
    cases hOther
    rw [hKind] at hStruct
    cases hStruct

/-- A coherent member counts in an encoded size as its step encodes it. -/
theorem countedAs_of_coherent (hStep : naming.step entry.toOutline member = .ok step)
    (hPart : naming.sizeTerm? entry.toOutline member = .ok part) (hCoherent : member.Coherent) :
    step.CountedAs part := by
  rcases Naming.step_eq_ok hStep with
    ⟨hDecisive, copy, hCopy, rfl⟩ | ⟨value, hDecisive, rfl⟩ |
      ⟨lengthField, hDecisive, hOverride, hVarLen⟩ | ⟨discriminator, mapping, hDecisive, _, hUnion⟩
  · exact countedAs_assign hDecisive hCopy hPart
  · exact countedAs_fixedStep hDecisive hCoherent hPart
  · exact countedAs_varLenStep hOverride (Member.lengthField?_of_decisive? hDecisive) hVarLen hPart
  · refine countedAs_unionStep (fun hOverride => ?_) hUnion hPart
    have hViews := hCoherent hOverride
    cases hLength : member.lengthField? with
    | none => rfl
    | some lengthField =>
        rw [hLength, hDecisive] at hViews
        cases hViews.2

end Counting

theorem sizeTerm?_field {owner : Outline} {term : SizeTerm}
    (h : naming.sizeTerm? owner member = .ok (some term)) : term.field = member.name := by
  rcases Naming.sizeTerm?_eq_ok h with
    ⟨_, hSome⟩ | ⟨_, _, _, _, _, _, hSome⟩ | ⟨_, _, _, _, _, _, _, _, _, hSome⟩
  · cases hSome
  · cases hSome
    rfl
  · cases hSome
    rfl

theorem step_field {owner : Outline} (h : naming.step owner member = .ok step) :
    step.field = member.name := by
  rcases Naming.step_eq_ok h with
    ⟨_, copy, _, rfl⟩ | ⟨value, _, rfl⟩ | ⟨lengthField, _, _, hVarLen⟩ | ⟨_, _, _, _, hUnion⟩
  · rfl
  · rcases Naming.fixedStep_cases member value with hFixed | hFixed <;> rw [hFixed] <;> rfl
  · obtain ⟨_, _, _, rfl, _⟩ := Naming.varLenStep_eq_ok hVarLen
    rfl
  · obtain ⟨_, _, _, _, _, _, _, _, rfl⟩ := Naming.unionStep_eq_ok hUnion
    rfl

/-- Among the terms of a type whose members have distinct names, those of a member's name
are what the member adds. -/
theorem mem_terms_iff {owner : Outline}
    (hNames : (owner.members.map fun member => member.name).Nodup) {parts : List (Option SizeTerm)}
    (hParts : List.Forall₂ (fun member part => naming.sizeTerm? owner member = .ok part)
      owner.members parts)
    (hMember : member ∈ owner.members) {part : Option SizeTerm}
    (hPart : naming.sizeTerm? owner member = .ok part) {term : SizeTerm}
    (hField : term.field = member.name) : term ∈ parts.filterMap id ↔ part = some term := by
  constructor
  · intro hTerm
    obtain ⟨_, hMem, rfl⟩ := List.mem_filterMap.1 hTerm
    obtain ⟨other, hOther, hAdds⟩ := exists_left_of_mem hParts hMem
    have hSame : member = other := List.inj_on_of_nodup_map hNames hMember hOther
      (hField.symm.trans (sizeTerm?_field hAdds))
    rw [← hSame, hPart] at hAdds
    exact Except.ok.inj hAdds
  · rintro rfl
    obtain ⟨other, hOther, hAdds⟩ := exists_right_of_mem hParts hMember
    rw [hPart] at hAdds
    exact List.mem_filterMap.2 ⟨other, hOther, (Except.ok.inj hAdds).symm⟩

/-- The terms count a step as the member's own term does. -/
theorem countedIn_iff {owner : Outline}
    (hNames : (owner.members.map fun member => member.name).Nodup) {parts : List (Option SizeTerm)}
    (hParts : List.Forall₂ (fun member part => naming.sizeTerm? owner member = .ok part)
      owner.members parts)
    (hMember : member ∈ owner.members) {part : Option SizeTerm}
    (hPart : naming.sizeTerm? owner member = .ok part)
    (hStep : naming.step owner member = .ok step) :
    step.CountedIn (parts.filterMap id) ↔ step.CountedAs part := by
  have hMem : ∀ term : SizeTerm, term.field = step.field →
      (term ∈ parts.filterMap id ↔ part = some term) := fun term hField =>
    mem_terms_iff hNames hParts hMember hPart (hField.trans (step_field hStep))
  unfold Step.CountedIn Step.CountedAs
  refine and_congr ?_ ?_
  · refine forall_congr' fun lengthField => forall_congr' fun element => ?_
    rw [hMem _ rfl]
  · refine forall_congr' fun source => ?_
    refine iff_congr (exists_congr fun target => exists_congr fun function => ?_) Iff.rfl
    exact hMem _ rfl

end Member

/-! ## All members of a program -/

/-- A packed type has been made from the declaration of its name. -/
theorem declared_of_packedType (h : Compiled declarations request naming program)
    {entry : TypeEntry}
    (hEntry : entry ∈ naming.graph.entriesOf (naming.graph.postOrder naming.graph.roots))
    {type : PackedType} (hMade : naming.packedType entry = .ok type) :
    ∃ declaration, declarations.get? type.source = some declaration ∧
      entry.members = declaration.members naming.index type.source := by
  have hGraph := TypeGraph.entriesOf_subset hEntry
  obtain ⟨declaration, hGet, _, hMembers⟩ := h.sound.declared entry hGraph
  rw [← (Naming.packedType_eq_ok hMade).1] at hGet hMembers
  exact ⟨declaration, hGet, hMembers⟩

/-- A type of the program, with its entry in the graph and its declaration. -/
theorem exists_declaration (h : Compiled declarations request naming program)
    {type : PackedType} (hType : type ∈ program.types) :
    ∃ entry ∈ naming.graph.entriesOf (naming.graph.postOrder naming.graph.roots),
      ∃ declaration, naming.packedType entry = .ok type ∧
        declarations.get? type.source = some declaration ∧
        entry.members = declaration.members naming.index type.source := by
  obtain ⟨entry, hEntry, hMade⟩ := exists_left_of_mem h.types hType
  have hOrder := (h.sound.mem_declarationOrder_iff entry).1 hEntry
  obtain ⟨declaration, hGet, hMembers⟩ := h.declared_of_packedType hOrder hMade
  exact ⟨entry, hOrder, declaration, hMade, hGet, hMembers⟩

end Compiled

/-- **Agreement of the lowered views**: in every program that compiles, the views of a
member of a structure agree exactly if the member is coherent. -/
theorem views_agree_iff_coherent {index : DirectiveIndex} {settings : Settings}
    (hCompile : compile declarations index settings request = .ok program)
    (hFields : program.DistinctFields declarations) :
    ∀ type ∈ program.types, type.kind = .struct →
      ∃ declaration function, declarations.get? type.source = some declaration ∧
        program.encodeFunction? type.source = some function ∧
        type.members.length = declaration.fields.length ∧
        function.steps.length = declaration.fields.length ∧
        ∀ (i : Nat) (member : Member) (packed : PackedMember) (step : Step),
          (declaration.members index type.source)[i]? = some member →
          type.members[i]? = some packed → function.steps[i]? = some step →
          packed.name = member.name ∧
            (program.ViewsAgree type.source packed step ↔ member.Coherent) := by
  obtain ⟨naming, rfl, h⟩ := compiled_of_compile hCompile
  intro type hType hStruct
  obtain ⟨entry, hEntry, declaration, hMade, hGet, hMembers⟩ := h.exists_declaration hType
  obtain ⟨hSource, hKind, hPacked⟩ := Naming.packedType_eq_ok hMade
  have hNotUnion : entry.isUnion = false :=
    AggregateKind.isUnion_eq_false.2 (hKind.symm.trans hStruct)
  obtain ⟨function, hFunction, hEncodes⟩ := h.exists_encode_function hEntry hNotUnion
  obtain ⟨hFunctionSource, _, hSteps⟩ := Naming.encodeFunction_eq_ok hEncodes
  have hLength : entry.members.length = declaration.fields.length := by
    rw [hMembers, Declaration.members, List.length_map]
  have hGraph := TypeGraph.entriesOf_subset hEntry
  have hNames : (entry.members.map fun member => member.name).Nodup := by
    rw [hMembers, Declaration.members, List.map_map]
    exact hFields type hType declaration hGet
  refine ⟨declaration, function, hGet,
    h.encodeFunction?_eq_some.2 ⟨hFunction, hFunctionSource.trans hSource.symm⟩,
    by rw [← hPacked.length_eq, hLength], by rw [← hSteps.length_eq, hLength], ?_⟩
  intro i member packed step hMember hPlace hStep
  rw [← hMembers] at hMember
  have hMem := List.mem_of_getElem? hMember
  have hPack : naming.packedMember member = .ok packed :=
    rel_of_getElem? hPacked hMember hPlace
  have hLowered : naming.step entry.toOutline member = .ok step :=
    rel_of_getElem? hSteps hMember hStep
  have hName := (Naming.packedMember_eq_ok hPack).1
  refine ⟨hName, fun hAgree => Compiled.coherent_of_fits hLowered hPack hAgree.2.1,
    fun hCoherent => ⟨(Compiled.step_field hLowered).trans hName.symm,
      h.fits_of_coherent hEntry hMem hLowered hPack hCoherent, ?_⟩⟩
  intro sizes hSizes hSame
  obtain ⟨parts, hParts, hFiltered⟩ :=
    Naming.sizeTerms_eq_ok (h.sizeTerms_of_source hGraph hSizes (hSame.trans hSource))
  obtain ⟨part, _, hPart⟩ := exists_right_of_mem hParts hMem
  rw [hFiltered, Compiled.countedIn_iff hNames hParts hMem hPart hLowered]
  exact Compiled.countedAs_of_coherent hLowered hPart hCoherent

end Compiled

/-! ## Samples -/

namespace Sample

/-- A batch of items, behind a value of one of two kinds. -/
def batch : Declaration :=
  ⟨.struct,
    [ ⟨"kind", ⟨"uint8_t", .plain⟩⟩, ⟨"body", ⟨"union chreTestVariant", .plain⟩⟩
    , ⟨"count", ⟨"uint8_t", .plain⟩⟩, ⟨"items", ⟨"const struct chreTestItem", .pointer⟩⟩
    , ⟨"reserved", ⟨"uint8_t", .array 2⟩⟩ ]⟩

def declarations : Declarations :=
  Table.ofList
    [ ("chreTestBatch", batch)
    , ("chreTestItem", ⟨.struct, [⟨"id", ⟨"uint16_t", .plain⟩⟩]⟩)
    , ("chreTestVariant", ⟨.union,
        [⟨"code", ⟨"uint32_t", .plain⟩⟩, ⟨"item", ⟨"struct chreTestItem", .plain⟩⟩]⟩) ]

def index : DirectiveIndex :=
  ⟨[ ⟨"chreTestBatch", "body", .unionVariant "kind" [(.int 0, "code"), (.int 1, "item")]⟩
   , ⟨"chreTestBatch", "items", .varLenArray "count"⟩
   , ⟨"chreTestBatch", "reserved", .fixedValue (.int 7)⟩ ]⟩

def request : Request := ⟨"test", ["chreTestBatch"], []⟩

def program : Program := (compileWithin 20 declarations index {} request).getD default

theorem compiles : compile declarations index {} request = .ok program :=
  compile_getD (by decide +kernel)

theorem distinctFields : program.DistinctFields declarations := by
  unfold Program.DistinctFields
  decide +kernel

theorem unmixed : program.Unmixed declarations index := by
  unfold Program.Unmixed Member.Unmixed
  decide +kernel

/-- The packed type of a batch. -/
def packedBatch : PackedType := (program.type? "chreTestBatch").getD default

/-- The encode function of a batch. -/
def convertBatch : EncodeFunction := (program.encodeFunction? "chreTestBatch").getD default

def itemRef : RecordRef := ⟨"chreTestItem", "struct ChppTestItem", .struct⟩

/-- The items are a descriptor, which a step stores that copies each of them. -/
theorem views :
    program.ViewsAgree "chreTestBatch"
      ⟨"items", .descriptor (.record itemRef), none,
        some "References count instances of struct ChppTestItem"⟩
      (.varLen "items" "count" (.record itemRef)
        (.record "chreTestItem" "chppTestConvertItemFromChre" false)) := by
  have hBatch : packedBatch ∈ program.types ∧ packedBatch.kind = .struct ∧
      packedBatch.source = "chreTestBatch" ∧
      packedBatch.members[3]? = some ⟨"items", .descriptor (.record itemRef), none,
        some "References count instances of struct ChppTestItem"⟩ ∧
      program.encodeFunction? "chreTestBatch" = some convertBatch ∧
      convertBatch.steps[3]? = some (.varLen "items" "count" (.record itemRef)
        (.record "chreTestItem" "chppTestConvertItemFromChre" false)) := by decide +kernel
  obtain ⟨hMem, hStruct, hSource, hPacked, hConvert, hStep⟩ := hBatch
  obtain ⟨declaration, function, hGet, hFunction, _, _, hAll⟩ :=
    views_agree_iff_coherent compiles distinctFields packedBatch hMem hStruct
  rw [hSource] at hGet hFunction hAll
  have hDeclared : declarations.get? "chreTestBatch" = some batch := by decide +kernel
  obtain rfl : batch = declaration := Option.some.inj (hDeclared.symm.trans hGet)
  obtain rfl : convertBatch = function := Option.some.inj (hConvert.symm.trans hFunction)
  have hItems : (batch.members index "chreTestBatch")[3]? =
      some ⟨"items", ⟨"const struct chreTestItem", .pointer⟩, [.varLenArray "count"]⟩ := by
    decide +kernel
  exact (hAll 3 _ _ _ hItems hPacked hStep).2.2 fun _ => ⟨rfl, rfl⟩

/-- An array with two directives on it, of which the first makes it a constant. -/
def mixed : Declarations :=
  Table.ofList
    [ ("chreTestBatch", ⟨.struct,
        [⟨"count", ⟨"uint8_t", .plain⟩⟩, ⟨"data", ⟨"const uint16_t", .pointer⟩⟩]⟩) ]

def mixedIndex : DirectiveIndex :=
  ⟨[ ⟨"chreTestBatch", "data", .fixedValue (.int 1)⟩
   , ⟨"chreTestBatch", "data", .varLenArray "count"⟩ ]⟩

def mixedProgram : Program := (compileWithin 20 mixed mixedIndex {} request).getD default

/-- The array has a place for a descriptor and is counted as an array, but its step writes the
constant. -/
theorem mixed_views_disagree :
    compile mixed mixedIndex {} request = .ok mixedProgram ∧
      mixedProgram.DistinctFields mixed ∧
      ∃ type ∈ mixedProgram.types, type.kind = .struct ∧
        ∃ function packed sizes, mixedProgram.encodeFunction? type.source = some function ∧
          type.members[1]? = some packed ∧
          packed.placement = .descriptor (.primitive "uint16_t") ∧
          function.steps[1]? = some (.fixedScalar "data" (.int 1)) ∧
          mixedProgram.sizeFunction? type.source = some sizes ∧
          sizes.terms = [.varLen "data" "count" (.primitive "uint16_t")] ∧
          ¬ mixedProgram.ViewsAgree type.source packed (.fixedScalar "data" (.int 1)) := by
  refine ⟨compile_getD (by decide +kernel), by unfold Program.DistinctFields; decide +kernel, ?_⟩
  let count : PackedMember := ⟨"count", .value (.primitive "uint8_t"), none, none⟩
  let data : PackedMember := ⟨"data", .descriptor (.primitive "uint16_t"), none,
    some "Input ignored; always set to 1"⟩
  refine ⟨⟨"chreTestBatch", "struct ChppTestBatch", .struct, [count, data]⟩, by decide +kernel, rfl,
    ⟨"chreTestBatch", "struct ChppTestBatch", "chppTestConvertBatchFromChre", true,
      [.assign "count" .scalar, .fixedScalar "data" (.int 1)]⟩, data,
    ⟨"chreTestBatch", "struct ChppTestBatch", "chppTestSizeOfBatchFromChre", "batch",
      [.varLen "data" "count" (.primitive "uint16_t")]⟩,
    by decide +kernel, rfl, rfl, rfl, by decide +kernel, rfl, ?_⟩
  rintro ⟨_, ⟨spec, hValue, _⟩, _⟩
  cases hValue

end Sample

end WireSchema
