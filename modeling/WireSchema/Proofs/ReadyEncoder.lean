import WireSchema.Encoding.Run
import WireSchema.Proofs.LaidOut
import WireSchema.Proofs.MemberViews

/-!
# Encoders that are ready to run

An encode function is *ready* if its steps tile the packed type, each step fits its
place and is counted by the size function, and the functions it calls are ready and
lower.  It is all that the proofs about encode runs need to know of a program.

The height is the number of calls in the longest chain, so a ready function never runs
out of fuel.

## Main results

* `Deployed.ready`: in a compiled program that is laid out and encodes variable-length arrays
  as such, every function that an entry point can reach is ready.
* `Deployed.ready_of_entryPoint`: where encoding a root starts.
-/

namespace WireSchema

/-- Whether the copy passes the payload on. -/
def Copy.varLen : Copy → Bool
  | .record _ _ varLen => varLen
  | _ => false

/-- The structure whose encode function the copy calls. -/
def Copy.callee? : Copy → Option String
  | .record source _ _ => some source
  | .recordArray source _ _ => some source
  | _ => none

/-- The copies that a step can make. -/
def Step.copies : Step → List Copy
  | .assign _ copy => [copy]
  | .varLen _ _ _ copy => [copy]
  | .union _ _ _ arms => arms.map UnionArm.copy
  | _ => []

/-- The place of one element of an array. -/
def FieldLayout.element (layout : FieldLayout) : FieldLayout :=
  { offset := 0, size := layout.elementSize, elementSize := layout.elementSize, count := 1,
    scalar := layout.scalar }

/-- A place for scalars is one for a primitive type of the table. -/
def FieldLayout.Holds (primitives : Primitives) (layout : FieldLayout) : Prop :=
  ∀ scalar, layout.scalar = some scalar →
    ∃ spec, primitives.resolve? spec = some ⟨layout.elementSize, scalar⟩

namespace Encoder

/-- A copy fills a place exactly. -/
def CopyFits (encoder : Encoder) (layout : FieldLayout) : Copy → Prop
  | .scalar => layout.scalar ≠ none ∧ layout.size = layout.elementSize
  | .array length => layout.scalar ≠ none ∧ layout.size = layout.elementSize * length
  | .record source _ _ =>
    encoder.staticSize source = .ok layout.elementSize ∧ layout.size = layout.elementSize
  | .recordArray source _ length =>
    encoder.staticSize source = .ok layout.elementSize ∧
      layout.size = layout.elementSize * length

/-- A step fits its place, and `part` is what it adds to the encoded size.  Only a constant
in the place of a record may add what it does not write, because it cannot be written. -/
def StepFits (encoder : Encoder) (primitives : Primitives) (layout : FieldLayout)
    (part : Option SizeTerm) : Step → Prop
  | .fixedScalar .. => layout.size = layout.elementSize ∧ (part ≠ none → layout.scalar = none)
  | .fixedFill .. => part = none
  | .assign field copy =>
    encoder.CopyFits layout copy ∧
      match copy with
      | .record source _ true =>
        ∃ target function, part = some (.nested field source target function)
      | _ => part = none
  | .varLen field lengthField element copy =>
    layout.size = descriptorSize ∧ encoder.CopyFits layout.element copy ∧ copy.varLen = false ∧
      part = some (.varLen field lengthField element)
  | .union _ record _ arms =>
    part = none ∧ ∀ arm ∈ arms, ∃ variant,
      encoder.fieldLayout record.source arm.member = .ok variant ∧ variant.offset = 0 ∧
        variant.size ≤ layout.size ∧ variant.Holds primitives ∧
        encoder.CopyFits variant arm.copy ∧ arm.copy.varLen = false

/-- The steps fill the places of `source` one after another, from `offset` to `size`, and
`parts` are what they add to the encoded size. -/
inductive Tiles (encoder : Encoder) (primitives : Primitives) (source : String) :
    (offset : Nat) → List Step → List (Option SizeTerm) → (size : Nat) → Prop
  | nil {offset : Nat} : Tiles encoder primitives source offset [] [] offset
  | cons {offset size : Nat} {step : Step} {steps : List Step} {part : Option SizeTerm}
      {parts : List (Option SizeTerm)} {layout : FieldLayout} :
      encoder.fieldLayout source step.field = .ok layout → layout.offset = offset →
      layout.Holds primitives → encoder.StepFits primitives layout part step →
      Tiles encoder primitives source (offset + layout.size) steps parts size →
      Tiles encoder primitives source offset (step :: steps) (part :: parts) size

/-- The function that a copy calls, if any, is there, takes the payload exactly if the copy
passes it on, and is good. -/
def Calls (encoder : Encoder) (good : EncodeFunction → Prop) (copy : Copy) : Prop :=
  ∀ source, copy.callee? = some source →
    ∃ callee, encoder.encodeFunction source = .ok callee ∧ callee.varLen = copy.varLen ∧ good callee

/-- A function that can be run, with fewer than `height` calls in a chain below it. -/
def Ready (encoder : Encoder) (primitives : Primitives) : (height : Nat) → EncodeFunction → Prop
  | 0, _ => False
  | height + 1, function =>
    (∃ size parts, encoder.staticSize function.source = .ok size ∧
      encoder.Tiles primitives function.source 0 function.steps parts size ∧
      (function.varLen = false → ∀ part ∈ parts, part = none) ∧
      (function.varLen = true →
        ∃ sizes, encoder.program.sizeFunction? function.source = some sizes ∧
          sizes.terms = parts.filterMap id)) ∧
    ∀ step ∈ function.steps, ∀ copy ∈ step.copies,
      encoder.Calls (encoder.Ready primitives height) copy

theorem Ready.exists_staticSize {encoder : Encoder} {primitives : Primitives} {height : Nat}
    {function : EncodeFunction} (h : encoder.Ready primitives height function) :
    ∃ size, encoder.staticSize function.source = .ok size := by
  cases height with
  | zero => exact h.elim
  | succ height =>
      obtain ⟨⟨size, _, hSize, _⟩, _⟩ := h
      exact ⟨size, hSize⟩

theorem Ready.exists_sizeFunction {encoder : Encoder} {primitives : Primitives} {height : Nat}
    {function : EncodeFunction} (h : encoder.Ready primitives height function)
    (hVarLen : function.varLen = true) :
    (encoder.program.sizeFunction? function.source).isSome := by
  cases height with
  | zero => exact h.elim
  | succ height =>
      obtain ⟨⟨_, _, _, _, _, hSizes⟩, _⟩ := h
      obtain ⟨sizes, hFound, _⟩ := hSizes hVarLen
      rw [hFound]
      rfl

/-! ## Places -/

theorem typeLayout_eq_ok {encoder : Encoder} {source : String} {layout : TypeLayout} :
    encoder.typeLayout source = .ok layout ↔ encoder.layouts.get? source = some layout := by
  unfold Encoder.typeLayout
  split <;> simp_all

theorem staticSize_eq_ok {encoder : Encoder} {source : String} {size : Nat} :
    encoder.staticSize source = .ok size ↔
      ∃ layout, encoder.layouts.get? source = some layout ∧ layout.size = size := by
  unfold Encoder.staticSize
  rw [bind_eq_ok]
  refine exists_congr fun layout => ?_
  rw [typeLayout_eq_ok, pure_eq_ok]

theorem fieldLayout_eq_ok {encoder : Encoder} {source field : String} {place : FieldLayout} :
    encoder.fieldLayout source field = .ok place ↔
      ∃ layout, encoder.layouts.get? source = some layout ∧
        layout.fields.get? field = some place := by
  unfold Encoder.fieldLayout
  rw [bind_eq_ok]
  refine exists_congr fun layout => ?_
  rw [typeLayout_eq_ok]
  refine and_congr_right fun _ => ?_
  cases layout.fields.get? field with
  | none => simp [throw, throwThe, MonadExceptOf.throw]
  | some found => rw [pure_eq_ok, Option.some.injEq]

theorem elementOf_record {encoder : Encoder} {primitives : Primitives} {owner member : String}
    {ref : RecordRef} {element : Nat × Option ScalarClass}
    (h : encoder.layouts.elementOf primitives owner member (.record ref) = .ok element) :
    encoder.staticSize ref.source = .ok element.1 ∧ element.2 = none := by
  unfold Layouts.elementOf at h
  dsimp only at h
  split at h
  · rename_i layout hLayout
    cases h
    exact ⟨staticSize_eq_ok.2 ⟨layout, hLayout, rfl⟩, rfl⟩
  · cases h

/-- A copy that fits what a member is represented as fits its place. -/
theorem copyFits_of_fits {encoder : Encoder} {primitives : Primitives} {owner member : String}
    {representation : Representation} {element : Nat × Option ScalarClass}
    (hElement : encoder.layouts.elementOf primitives owner member representation = .ok element)
    {copy : Copy} {arrayLength : Option Nat} (hFits : copy.Fits representation arrayLength)
    {layout : FieldLayout} (hElementSize : layout.elementSize = element.1)
    (hScalar : layout.scalar = element.2)
    (hSize : layout.size = element.1 * arrayLength.getD 1) : encoder.CopyFits layout copy := by
  cases representation with
  | primitive spec =>
      unfold Layouts.elementOf at hElement
      dsimp only at hElement
      split at hElement
      · cases hElement
        cases copy with
        | scalar =>
            obtain rfl : arrayLength = none := hFits
            exact ⟨by simp [hScalar], by simpa [hElementSize] using hSize⟩
        | array length =>
            obtain rfl : arrayLength = some length := hFits
            exact ⟨by simp [hScalar], by simpa [hElementSize] using hSize⟩
        | record source function varLen => exact hFits.elim
        | recordArray source function length => exact hFits.elim
      · cases hElement
  | record ref =>
      obtain ⟨hStatic, _⟩ := elementOf_record hElement
      cases copy with
      | scalar => exact hFits.elim
      | array length => exact hFits.elim
      | record source function varLen =>
          obtain ⟨rfl, rfl⟩ := hFits
          exact ⟨hElementSize ▸ hStatic, by simpa [hElementSize] using hSize⟩
      | recordArray source function length =>
          obtain ⟨rfl, rfl⟩ := hFits
          exact ⟨hElementSize ▸ hStatic, by simpa [hElementSize] using hSize⟩

/-- The class of a place comes from the table of primitives. -/
theorem holds_of_fieldAt {layouts : Layouts} {primitives : Primitives} {owner : String}
    {member : PackedMember} {offset : Nat} {layout : FieldLayout}
    (h : layouts.fieldAt primitives owner member offset = .ok layout) :
    layout.Holds primitives := by
  have hElement : ∀ {representation : Representation} {element : Nat × Option ScalarClass},
      layouts.elementOf primitives owner member.name representation = .ok element →
      ∀ scalar, element.2 = some scalar →
        ∃ spec, primitives.resolve? spec = some ⟨element.1, scalar⟩ := by
    intro representation element hElement scalar hScalar
    unfold Layouts.elementOf at hElement
    split at hElement
    · rename_i spec
      split at hElement
      · rename_i primitive hPrimitive
        cases hElement
        cases hScalar
        exact ⟨spec, hPrimitive⟩
      · cases hElement
    · split at hElement
      · cases hElement
        cases hScalar
      · cases hElement
  intro scalar hScalar
  cases hPlacement : member.placement with
  | value representation =>
      obtain ⟨element, hOf, rfl⟩ := (Layouts.fieldAt_value hPlacement).1 h
      exact hElement hOf scalar hScalar
  | descriptor representation =>
      obtain ⟨element, hOf, rfl⟩ := (Layouts.fieldAt_descriptor hPlacement).1 h
      exact hElement hOf scalar hScalar

end Encoder

/-! ## Compiled programs -/

/-- An encoder for a program: as computed from a table of primitive types, with any
constants and any limit on allocations. -/
def Encoder.IsFor (encoder : Encoder) (program : Program) (primitives : Primitives) : Prop :=
  ∃ base constants maxAllocation, Encoder.ofProgram program primitives = .ok base ∧
    encoder = (base.withConstants constants).withMaxAllocation maxAllocation

theorem Encoder.IsFor.layouts {encoder : Encoder} {program : Program} {primitives : Primitives}
    (h : encoder.IsFor program primitives) :
    encoder.program = program ∧
      Layouts.ofProgram primitives encoder.program = .ok encoder.layouts := by
  obtain ⟨base, constants, maxAllocation, hBase, rfl⟩ := h
  obtain ⟨layouts, hLayouts, hPure⟩ := bind_eq_ok.1 hBase
  obtain rfl := pure_eq_ok.1 hPure
  exact ⟨rfl, hLayouts⟩

theorem Encoder.isFor_of_layouts {program : Program} {primitives : Primitives} {layouts : Layouts}
    (h : Layouts.ofProgram primitives program = .ok layouts) :
    (Encoder.mk program layouts Table.empty payloadLimit).IsFor program primitives := by
  refine ⟨⟨program, layouts, Table.empty, payloadLimit⟩, [], payloadLimit, ?_, rfl⟩
  unfold Encoder.ofProgram
  rw [h]
  rfl

theorem Encoder.encodeFunction_eq_ok {encoder : Encoder} {source : String}
    {function : EncodeFunction} :
    encoder.encodeFunction source = .ok function ↔
      encoder.program.encodeFunction? source = some function := by
  unfold Encoder.encodeFunction
  split <;> simp_all

/-- An encoder laid out for a compiled program that has distinct field names and encodes
variable-length arrays as such. -/
structure Deployed (declarations : Declarations) (request : Request) (naming : Naming)
    (encoder : Encoder) (primitives : Primitives) : Prop where
  compiled : Compiled declarations request naming encoder.program
  layouts : Layouts.ofProgram primitives encoder.program = .ok encoder.layouts
  fields : encoder.program.DistinctFields declarations
  decided : encoder.program.Decided declarations naming.index

theorem deployed_of_decided {declarations : Declarations} {request : Request}
    {index : DirectiveIndex} {settings : Settings} {program : Program} {encoder : Encoder}
    {primitives : Primitives} (hCompile : compile declarations index settings request = .ok program)
    (hFields : program.DistinctFields declarations) (hDecided : program.Decided declarations index)
    (hEncoder : encoder.IsFor program primitives) :
    ∃ naming, Deployed declarations request naming encoder primitives := by
  obtain ⟨rfl, hLayouts⟩ := hEncoder.layouts
  obtain ⟨naming, rfl, h⟩ := compiled_of_compile hCompile
  exact ⟨naming, h, hLayouts, hFields, hDecided⟩

theorem deployed_of_compile {declarations : Declarations} {request : Request}
    {index : DirectiveIndex} {settings : Settings} {program : Program} {encoder : Encoder}
    {primitives : Primitives} (hCompile : compile declarations index settings request = .ok program)
    (hFields : program.DistinctFields declarations) (hUnmixed : program.Unmixed declarations index)
    (hEncoder : encoder.IsFor program primitives) :
    ∃ naming, Deployed declarations request naming encoder primitives :=
  deployed_of_decided hCompile hFields hUnmixed.decided hEncoder

namespace Compiled

variable {declarations : Declarations} {request : Request} {naming : Naming}
  {encoder : Encoder} {primitives : Primitives}

/-- The members of a packed type have distinct names if those of its declaration have. -/
theorem nodup_members (h : Compiled declarations request naming encoder.program)
    (hFields : encoder.program.DistinctFields declarations) {type : PackedType}
    (hType : type ∈ encoder.program.types) : (type.members.map PackedMember.name).Nodup := by
  obtain ⟨entry, _, declaration, hMade, hDeclared, hMembers⟩ := h.exists_declaration hType
  rw [map_eq_of_forall₂ (f := fun member : Member => member.name)
    (Naming.packedType_eq_ok hMade).2.2 fun _ _ hPacked => (Naming.packedMember_eq_ok hPacked).1,
    hMembers, Declaration.members, List.map_map]
  exact hFields type hType declaration hDeclared

/-- The members of a packed type are where the layout of its members says. -/
theorem exists_layout (h : Compiled declarations request naming encoder.program)
    (hLayouts : Layouts.ofProgram primitives encoder.program = .ok encoder.layouts)
    (hFields : encoder.program.DistinctFields declarations) {type : PackedType}
    (hType : type ∈ encoder.program.types) :
    ∃ size fields, encoder.staticSize type.source = .ok size ∧
      encoder.layouts.fieldsFrom primitives type.kind type.source 0 type.members =
        .ok (fields, size) ∧
      ∀ pair ∈ fields, encoder.fieldLayout type.source pair.1 = .ok pair.2 := by
  obtain ⟨layout, hGet, hLayout⟩ := Layouts.ofProgram_ok hLayouts h.nodup_type_sources type hType
  obtain ⟨fields, hFrom, hTable⟩ := Layouts.typeLayout_eq_ok hLayout
  have hNames : (fields.map Prod.fst).Nodup := by
    have hSame := Layouts.map_fst_fieldsFrom hFrom
    dsimp only at hSame
    rw [hSame]
    exact h.nodup_members hFields hType
  refine ⟨layout.size, fields, Encoder.staticSize_eq_ok.2 ⟨layout, hGet, rfl⟩, hFrom, ?_⟩
  intro pair hPair
  refine Encoder.fieldLayout_eq_ok.2 ⟨layout, hGet, ?_⟩
  rw [hTable]
  exact Table.get?_ofList hNames hPair

/-- A type that an encode run can reach: if it is variable-length, the search for size
functions has been there. -/
def Live (encoder : Encoder) (entry : TypeEntry) : Prop :=
  entry.varLen = true → (encoder.program.sizeFunction? entry.name).isSome

section Entry

variable {entry : TypeEntry}

/-- A type of fixed size has no variable-length array and contains none. -/
theorem fixed_members {program : Program} (h : Compiled declarations request naming program)
    (hEntry : entry ∈ naming.graph.entries) (hFixed : entry.varLen = false) {member : Member}
    (hMember : member ∈ entry.members) :
    member.lengthField? = none ∧
      ∀ nested, naming.graph.nested? member = some nested → nested.varLen = false := by
  have hNot := (not_congr (h.sound.varLen_iff entry hEntry)).1 (by simp [hFixed])
  rw [not_or, Outline.hasVarLenMember, List.any_eq_true] at hNot
  refine ⟨?_, fun nested hNested => ?_⟩
  · by_contra hLength
    exact hNot.1 ⟨member, hMember, Option.isSome_iff_ne_none.2 hLength⟩
  · obtain ⟨hMem, hName⟩ := TypeGraph.nested?_eq_some hNested
    obtain ⟨d, hd⟩ := TypeGraph.mem_entries_iff.1 hMem
    have hDependency := (h.sound.mem_dependencies entry hEntry d nested hd).2
      (List.mem_filterMap.2 ⟨member, hMember, hName⟩)
    rw [← Bool.not_eq_true]
    exact fun hVarLen => hNot.2 ⟨d, hDependency, nested, hd, hVarLen⟩

/-- What the members of a live type add to an encoded size. -/
theorem exists_parts (h : Compiled declarations request naming encoder.program)
    (hEntry : entry ∈ naming.graph.entries) (hLive : Live encoder entry) :
    ∃ parts, List.Forall₂ (fun member part => naming.sizeTerm? entry.toOutline member = .ok part)
        entry.members parts ∧
      (entry.varLen = false → ∀ part ∈ parts, part = none) ∧
      (entry.varLen = true → ∃ sizes, encoder.program.sizeFunction? entry.name = some sizes ∧
        sizes.terms = parts.filterMap id) := by
  cases hVarLen : entry.varLen with
  | true =>
      obtain ⟨sizes, hSizes⟩ := Option.isSome_iff_exists.1 (hLive hVarLen)
      obtain ⟨parts, hParts, hFiltered⟩ :=
        Naming.sizeTerms_eq_ok (h.sizeTerms_of_sizeFunction? hEntry hSizes)
      exact ⟨parts, hParts, by simp, fun _ => ⟨sizes, hSizes, hFiltered⟩⟩
  | false =>
      refine ⟨entry.members.map fun _ => none, ?_, by simp, by simp⟩
      rw [List.forall₂_map_right_iff, List.forall₂_same]
      intro member hMember
      obtain ⟨hLength, hNested⟩ := h.fixed_members hEntry hVarLen hMember
      unfold Naming.sizeTerm?
      dsimp only
      have hFilter : (naming.graph.nested? member).filter TypeEntry.varLen = none :=
        Option.filter_eq_none_iff.2 fun nested hMem => by simp [hNested nested hMem]
      rw [hLength, hFilter]
      split <;> rfl

section Step

variable {member : Member} {step : Step} {packed : PackedMember} {part : Option SizeTerm}

/-- The union of a step of a live type has a fixed size. -/
theorem union_fixed
    (hPart : naming.sizeTerm? entry.toOutline member = .ok part)
    (hOverride : member.typeOverride? = none) {union : TypeEntry}
    (hUnion : naming.graph.nested? member = some union) (hKind : union.isUnion = true) :
    union.varLen = false := by
  rcases Naming.sizeTerm?_eq_ok hPart with
    ⟨hNo | ⟨_, hFilter⟩, _⟩ | ⟨_, _, _, _, hFilter, _⟩ |
      ⟨nested, _, _, _, _, hNested, _, hStruct, _⟩
  · exact absurd hOverride hNo
  · simpa [hUnion, Option.filter] using hFilter
  · simpa [hUnion, Option.filter] using hFilter
  · rw [hUnion] at hNested
    cases hNested
    rw [hKind] at hStruct
    cases hStruct

/-- A copy of a member calls the structure that the member names. -/
theorem callee_of_copy {container : Outline} {copy : Copy}
    (hCopy : naming.copy container member = .ok copy) {source : String}
    (hSource : copy.callee? = some source) :
    member.typeOverride? = none ∧ ∃ callee, naming.graph.nested? member = some callee ∧
      callee.name = source ∧ callee.isUnion = false ∧ callee.varLen = copy.varLen := by
  rcases Naming.copy_eq_ok hCopy with
    ⟨_, rfl⟩ | ⟨nested, _, hOverride, hNested, hStruct, ⟨_, rfl⟩ | ⟨_, _, hFixed, rfl⟩⟩
  · unfold Member.primitiveCopy at hSource
    split at hSource <;> cases hSource
  · exact ⟨hOverride, nested, hNested, Option.some.inj hSource, hStruct, rfl⟩
  · exact ⟨hOverride, nested, hNested, Option.some.inj hSource, hStruct, hFixed⟩

/-- What a step calls: a structure that comes before its type. -/
theorem callee_before {program : Program} (h : Compiled declarations request naming program)
    {lead tail : List TypeEntry}
    (hOrder : naming.graph.entriesOf (naming.graph.postOrder naming.graph.roots) =
      lead ++ entry :: tail)
    (hMember : member ∈ entry.members) (hStep : naming.step entry.toOutline member = .ok step)
    {copy : Copy} (hCopy : copy ∈ step.copies) {source : String}
    (hSource : copy.callee? = some source) :
    ∃ callee ∈ lead, callee.name = source ∧ callee.isUnion = false ∧
      callee.varLen = copy.varLen := by
  have hEnum := h.sound.enumeration_postOrder naming.graph.roots
  -- A type that a member of a type before `entry` names comes before it, too.
  have hBefore : ∀ {container member nested}, container ∈ lead ∨ container = entry →
      member ∈ container.members → naming.graph.nested? member = some nested → nested ∈ lead := by
    intro container member nested hContainer hMember hNested
    obtain ⟨hMem, hName⟩ := TypeGraph.nested?_eq_some hNested
    have hNames := List.mem_filterMap.2 ⟨member, hMember, hName⟩
    rcases hContainer with hContainer | rfl
    · obtain ⟨front, back, rfl⟩ := List.append_of_mem hContainer
      refine List.mem_append_left _ (hEnum.nested_before front container (back ++ entry :: tail)
        (by rw [hOrder]; simp) nested hMem hNames)
    · exact hEnum.nested_before lead container tail hOrder nested hMem hNames
  rcases Naming.step_eq_ok hStep with
    ⟨_, made, hMade, rfl⟩ | ⟨value, _, rfl⟩ | ⟨_, _, _, hVarLen⟩ | ⟨_, _, _, _, hUnion⟩
  · obtain rfl := List.mem_singleton.1 hCopy
    obtain ⟨_, callee, hNested, hRest⟩ := callee_of_copy hMade hSource
    exact ⟨callee, hBefore (.inr rfl) hMember hNested, hRest⟩
  · unfold Naming.fixedStep at hCopy
    split at hCopy <;> cases hCopy
  · obtain ⟨_, made, _, rfl, ⟨_, rfl⟩ | ⟨nested, _, hNested, hStruct, hFixed, rfl⟩⟩ :=
      Naming.varLenStep_eq_ok hVarLen
    · obtain rfl := List.mem_singleton.1 hCopy
      cases hSource
    · obtain rfl := List.mem_singleton.1 hCopy
      exact ⟨nested, hBefore (.inr rfl) hMember hNested, Option.some.inj hSource, hStruct, hFixed⟩
  · obtain ⟨union, _, arms, hNested, _, _, _, hArms, rfl⟩ := Naming.unionStep_eq_ok hUnion
    obtain ⟨arm, hArm, rfl⟩ := List.mem_map.1 hCopy
    obtain ⟨pair, _, hMade⟩ := exists_left_of_mem hArms hArm
    obtain ⟨variant, made, hVariant, hCopies, rfl⟩ := Naming.unionArm_eq_ok hMade
    obtain ⟨_, callee, hInner, hRest⟩ := callee_of_copy hCopies hSource
    exact ⟨callee, hBefore (.inl (hBefore (.inr rfl) hMember hNested))
      (List.mem_of_find?_eq_some hVariant) hInner, hRest⟩

/-- The arms of a union of fixed size do not pass the payload on. -/
theorem arm_fixed {program : Program} (h : Compiled declarations request naming program)
    {union : TypeEntry} (hUnion : union ∈ naming.graph.entries) (hFixed : union.varLen = false)
    {value : Literal} {target : String} {arm : UnionArm}
    (hArm : naming.unionArm union.toOutline value target = .ok arm) : arm.copy.varLen = false := by
  obtain ⟨variant, copy, hVariant, hCopy, rfl⟩ := Naming.unionArm_eq_ok hArm
  rcases Naming.copy_eq_ok hCopy with
    ⟨_, rfl⟩ | ⟨nested, _, _, hInner, _, ⟨_, rfl⟩ | ⟨_, _, _, rfl⟩⟩
  · unfold Member.primitiveCopy
    split <;> rfl
  · exact (h.fixed_members hUnion hFixed (List.mem_of_find?_eq_some hVariant)).2 nested hInner
  · rfl

/-- A copy in a live type calls what has a size function, if it passes the payload on: the
member has a term in the size function of its structure. -/
theorem sizeFunction?_of_copy (h : Compiled declarations request naming encoder.program)
    (hEntry : entry ∈ naming.graph.entries) (hLive : Live encoder entry)
    (hMember : member ∈ entry.members) (hDecisive : member.decisive? = none) {copy : Copy}
    (hCopy : naming.copy entry.toOutline member = .ok copy) (hVarLen : copy.varLen = true)
    {source : String} (hSource : copy.callee? = some source) :
    (encoder.program.sizeFunction? source).isSome := by
  obtain ⟨hPlain, nested, hNested, hName, _, hFlag⟩ := callee_of_copy hCopy hSource
  rw [hVarLen] at hFlag
  have hOwner : entry.varLen = true := by
    cases hCase : entry.varLen with
    | true => rfl
    | false =>
        rw [(h.fixed_members hEntry hCase hMember).2 nested hNested] at hFlag
        cases hFlag
  obtain ⟨parts, hParts, _, hTerms⟩ := h.exists_parts hEntry hLive
  obtain ⟨part, hPartMem, hPart⟩ := exists_right_of_mem hParts hMember
  obtain ⟨sizes, hSizes, hFiltered⟩ := hTerms hOwner
  refine h.sizeFunction?_of_callee (List.mem_of_find?_eq_some hSizes) ?_
  rcases Naming.sizeTerm?_eq_ok hPart with
    ⟨hNo | ⟨_, hFilter⟩, _⟩ | ⟨_, _, hOverride, hLength, _⟩ |
      ⟨other, target, function, _, _, hSame, _, _, _, rfl⟩
  · exact absurd hPlain hNo
  · simp [hNested, Option.filter, hFlag] at hFilter
  · exact absurd hDecisive (Member.decisive?_ne_none hOverride (by simp [hLength]))
  · rw [hNested] at hSame
    cases hSame
    rw [hFiltered, List.mem_filterMap]
    exact ⟨_, List.mem_filterMap.2 ⟨_, hPartMem, rfl⟩, congrArg some hName⟩

/-- What a step of a live type calls is live. -/
theorem callee_of_step (h : Compiled declarations request naming encoder.program)
    {lead tail : List TypeEntry}
    (hOrder : naming.graph.entriesOf (naming.graph.postOrder naming.graph.roots) =
      lead ++ entry :: tail)
    (hLive : Live encoder entry) (hMember : member ∈ entry.members)
    (hStep : naming.step entry.toOutline member = .ok step) {copy : Copy}
    (hCopy : copy ∈ step.copies) {source : String} (hSource : copy.callee? = some source) :
    ∃ callee ∈ lead, callee.name = source ∧ callee.isUnion = false ∧
      callee.varLen = copy.varLen ∧ Live encoder callee := by
  have hEntry := (h.sound.enumeration_postOrder naming.graph.roots).mem_entries entry
    (by rw [hOrder]; simp)
  obtain ⟨callee, hLead, rfl, hStruct, hFlag⟩ :=
    h.callee_before hOrder hMember hStep hCopy hSource
  refine ⟨callee, hLead, rfl, hStruct, hFlag, fun hVarLen => ?_⟩
  rw [hFlag] at hVarLen
  rcases Naming.step_eq_ok hStep with
    ⟨hDecisive, made, hMade, rfl⟩ | ⟨value, _, rfl⟩ | ⟨_, _, _, hArray⟩ |
      ⟨_, _, _, hOverride, hUnion⟩
  · obtain rfl := List.mem_singleton.1 hCopy
    exact h.sizeFunction?_of_copy hEntry hLive hMember hDecisive hMade hVarLen hSource
  · unfold Naming.fixedStep at hCopy
    split at hCopy <;> cases hCopy
  · obtain ⟨_, made, _, rfl, ⟨_, rfl⟩ | ⟨nested, _, _, _, _, rfl⟩⟩ := Naming.varLenStep_eq_ok hArray
    · obtain rfl := List.mem_singleton.1 hCopy
      cases hVarLen
    · obtain rfl := List.mem_singleton.1 hCopy
      cases hVarLen
  · obtain ⟨union, _, arms, hNested, hKind, _, _, hArms, rfl⟩ := Naming.unionStep_eq_ok hUnion
    obtain ⟨parts, hParts, _⟩ := h.exists_parts hEntry hLive
    obtain ⟨part, _, hPart⟩ := exists_right_of_mem hParts hMember
    have hFixed := union_fixed hPart hOverride hNested hKind
    obtain ⟨arm, hArm, rfl⟩ := List.mem_map.1 hCopy
    obtain ⟨pair, _, hMade⟩ := exists_left_of_mem hArms hArm
    rw [h.arm_fixed (TypeGraph.nested?_eq_some hNested).1 hFixed hMade] at hVarLen
    cases hVarLen

/-- What a coherent member adds to an encoded size, in terms of its step. -/
private theorem part_eq_none (hStep : naming.step entry.toOutline member = .ok step)
    (hPart : naming.sizeTerm? entry.toOutline member = .ok part) (hCounted : step.CountedAs part)
    (hVarLen : ∀ field lengthField element copy, step ≠ .varLen field lengthField element copy)
    (hNested : ∀ field source function, step ≠ .assign field (.record source function true)) :
    part = none := by
  cases part with
  | none => rfl
  | some term =>
      have hField := (sizeTerm?_field hPart).trans (step_field hStep).symm
      cases term with
      | varLen field lengthField element =>
          obtain rfl : field = step.field := hField
          obtain ⟨copy, hEq⟩ := (hCounted.1 lengthField element).1 rfl
          exact absurd hEq (hVarLen _ _ _ _)
      | nested field source target function =>
          obtain rfl : field = step.field := hField
          obtain ⟨name, hEq⟩ := (hCounted.2 source).1 ⟨target, function, rfl⟩
          exact absurd hEq (hNested _ _ _)

/-- The arms of a union of a live type copy into places inside it. -/
theorem arms_fit (h : Compiled declarations request naming encoder.program)
    (hLayouts : Layouts.ofProgram primitives encoder.program = .ok encoder.layouts)
    (hFields : encoder.program.DistinctFields declarations)
    (hEntry : entry ∈ naming.graph.entriesOf (naming.graph.postOrder naming.graph.roots))
    (hMember : member ∈ entry.members)
    (hPart : naming.sizeTerm? entry.toOutline member = .ok part)
    (hOverride : member.typeOverride? = none) {discriminator : String}
    {mapping : List (Literal × String)}
    (hStep : naming.unionStep entry.toOutline member discriminator mapping = .ok step) :
    ∃ record arms, step = .union member.name record discriminator arms ∧
      ∃ size, encoder.staticSize record.source = .ok size ∧ ∀ arm ∈ arms, ∃ variant,
        encoder.fieldLayout record.source arm.member = .ok variant ∧ variant.offset = 0 ∧
          variant.size ≤ size ∧ variant.Holds primitives ∧ encoder.CopyFits variant arm.copy ∧
          arm.copy.varLen = false := by
  obtain ⟨union, record, arms, hNested, hKind, _, hRecord, hArms, rfl⟩ :=
    Naming.unionStep_eq_ok hStep
  have hEnum := h.sound.enumeration_postOrder naming.graph.roots
  obtain ⟨hUnion, hName⟩ := TypeGraph.nested?_eq_some hNested
  have hFixed := union_fixed hPart hOverride hNested hKind
  obtain ⟨type, hType, hMade⟩ := h.exists_type
    (hEnum.nested_mem hEntry hUnion (List.mem_filterMap.2 ⟨member, hMember, hName⟩))
  obtain ⟨hSource, hTypeKind, _⟩ := Naming.packedType_eq_ok hMade
  have hSame : record.source = type.source := (Naming.recordRef_eq_ok hRecord).1.trans hSource.symm
  obtain ⟨size, fields, hSize, hFrom, hPlaces⟩ := h.exists_layout hLayouts hFields hType
  have hIsUnion : type.kind = .union := hTypeKind.trans (AggregateKind.isUnion_eq_true.1 hKind)
  rw [hIsUnion] at hFrom
  refine ⟨record, arms, rfl, size, hSame ▸ hSize, fun arm hArm => ?_⟩
  obtain ⟨pair, _, hArmMade⟩ := exists_left_of_mem hArms hArm
  obtain ⟨variant, hVariant, hVariantName, representation, hPlacement, hFits⟩ :=
    h.arm_fits hUnion hFixed hArmMade hMade
  obtain ⟨field, hField, hAt, hLe⟩ := (Layouts.union_fields hFrom).2 variant hVariant
  obtain ⟨element, hElement, hLayout⟩ := (Layouts.fieldAt_value hPlacement).1 hAt
  refine ⟨field, ?_, Layouts.offset_of_fieldAt hAt, hLe, Encoder.holds_of_fieldAt hAt, ?_, ?_⟩
  · rw [hSame, ← hVariantName]
    exact hPlaces _ hField
  · exact Encoder.copyFits_of_fits hElement hFits (by rw [hLayout]) (by rw [hLayout])
      (by rw [hLayout])
  · exact h.arm_fixed hUnion hFixed hArmMade

/-- A step of a live type fits its place and is counted, if variable-length arrays are encoded
as such. -/
theorem stepFits (h : Compiled declarations request naming encoder.program)
    (hLayouts : Layouts.ofProgram primitives encoder.program = .ok encoder.layouts)
    (hFields : encoder.program.DistinctFields declarations)
    (hEntry : entry ∈ naming.graph.entriesOf (naming.graph.postOrder naming.graph.roots))
    (hMember : member ∈ entry.members) (hDecided : member.Decided)
    (hStep : naming.step entry.toOutline member = .ok step)
    (hPacked : naming.packedMember member = .ok packed)
    (hPart : naming.sizeTerm? entry.toOutline member = .ok part) {owner : String} {offset : Nat}
    {layout : FieldLayout}
    (hLayout : encoder.layouts.fieldAt primitives owner packed offset = .ok layout) :
    encoder.StepFits primitives layout part step := by
  rcases coherent_or_constant hStep hPacked hDecided with
    hCoherent | ⟨field, value, ref, rfl, hPlacement, hPlain⟩
  · have hFits := h.fits_of_coherent hEntry hMember hStep hPacked hCoherent
    have hCounted := countedAs_of_coherent hStep hPart hCoherent
    cases step with
    | fixedScalar field value =>
        obtain ⟨spec, hPlacement, hPlain⟩ := hFits
        obtain ⟨element, _, rfl⟩ := (Layouts.fieldAt_value hPlacement).1 hLayout
        have hNone := part_eq_none hStep hPart hCounted (by simp) (by simp)
        exact ⟨by simp [hPlain], fun hSome => absurd hNone hSome⟩
    | fixedFill field value => exact part_eq_none hStep hPart hCounted (by simp) (by simp)
    | assign field copy =>
        obtain ⟨representation, hPlacement, hCopy⟩ := hFits
        obtain ⟨element, hElement, rfl⟩ := (Layouts.fieldAt_value hPlacement).1 hLayout
        refine ⟨Encoder.copyFits_of_fits hElement hCopy rfl rfl rfl, ?_⟩
        split
        · exact (hCounted.2 _).2 ⟨_, rfl⟩
        · rename_i hOther
          refine part_eq_none hStep hPart hCounted (by simp) ?_
          rintro _ source function hEq
          cases hEq
          exact hOther _ _ rfl
    | varLen field lengthField element copy =>
        obtain ⟨hPlacement, hPlain, hCopy⟩ := hFits
        obtain ⟨found, hElement, rfl⟩ := (Layouts.fieldAt_descriptor hPlacement).1 hLayout
        refine ⟨by simp [hPlain],
          Encoder.copyFits_of_fits hElement hCopy rfl rfl (by simp [FieldLayout.element]), ?_,
          (hCounted.1 _ _).2 ⟨copy, rfl⟩⟩
        rcases Naming.varLen_of_step hStep with rfl | ⟨_, _, rfl⟩ <;> rfl
    | union field record discriminator arms =>
        have hNone := part_eq_none hStep hPart hCounted (by simp) (by simp)
        obtain ⟨hPlacement, hPlain, _⟩ := hFits
        obtain ⟨element, hElement, rfl⟩ := (Layouts.fieldAt_value hPlacement).1 hLayout
        obtain ⟨named, mapping, hOverride, hUnion⟩ := Naming.union_of_step hStep
        obtain ⟨_, _, hEq, size, hSize, hArms⟩ := h.arms_fit hLayouts hFields hEntry hMember hPart
          hOverride hUnion
        cases hEq
        -- The place of the union has the size that its layout has.
        rw [(Encoder.elementOf_record hElement).1] at hSize
        cases hSize
        refine ⟨hNone, fun arm hArm => ?_⟩
        simpa [hPlain] using hArms arm hArm
  · obtain ⟨element, hElement, rfl⟩ := (Layouts.fieldAt_value hPlacement).1 hLayout
    exact ⟨by simp [hPlain], fun _ => (Encoder.elementOf_record hElement).2⟩

end Step

/-- Steps that fit the places of their members tile the structure. -/
theorem tiles_of_fieldsFrom {owner : String} {source : String}
    {places : List (String × FieldLayout)}
    (hPlaces : ∀ pair ∈ places, encoder.fieldLayout source pair.1 = .ok pair.2)
    {members : List Member} {packed : List PackedMember} {steps : List Step}
    {parts : List (Option SizeTerm)}
    (hPacked : List.Forall₂ (fun member packed => naming.packedMember member = .ok packed)
      members packed)
    (hSteps : List.Forall₂ (fun member step => naming.step entry.toOutline member = .ok step)
      members steps)
    (hParts : List.Forall₂ (fun member part => naming.sizeTerm? entry.toOutline member = .ok part)
      members parts)
    (hFits : ∀ member ∈ members, ∀ packed step part offset layout,
      naming.packedMember member = .ok packed → naming.step entry.toOutline member = .ok step →
      naming.sizeTerm? entry.toOutline member = .ok part →
      encoder.layouts.fieldAt primitives owner packed offset = .ok layout →
      encoder.StepFits primitives layout part step)
    {offset size : Nat} {fields : List (String × FieldLayout)}
    (hFrom : encoder.layouts.fieldsFrom primitives .struct owner offset packed = .ok (fields, size))
    (hSub : fields ⊆ places) :
    encoder.Tiles primitives source offset steps parts size := by
  induction members generalizing packed steps parts offset fields with
  | nil =>
      cases hPacked
      cases hSteps
      cases hParts
      cases hFrom
      exact .nil
  | cons member rest ih =>
      obtain ⟨place, packed, hPlace, hPackedRest, rfl⟩ := List.forall₂_cons_left_iff.1 hPacked
      obtain ⟨step, steps, hStep, hStepsRest, rfl⟩ := List.forall₂_cons_left_iff.1 hSteps
      obtain ⟨part, parts, hPart, hPartsRest, rfl⟩ := List.forall₂_cons_left_iff.1 hParts
      obtain ⟨field, tail, total, hField, hTail, hEq⟩ := Layouts.fieldsFrom_cons.1 hFrom
      cases hEq
      have hOffset : field.offset = offset := Layouts.offset_of_fieldAt hField
      have hNext : max offset (field.offset + field.size) = offset + field.size := by omega
      rw [hNext] at hTail
      have hName : step.field = place.name :=
        (step_field hStep).trans (Naming.packedMember_eq_ok hPlace).1.symm
      refine .cons (hName ▸ hPlaces _ (hSub List.mem_cons_self)) hOffset
        (Encoder.holds_of_fieldAt hField)
        (hFits member List.mem_cons_self place step part _ field hPlace hStep hPart hField)
        (ih hPackedRest hStepsRest hPartsRest
          (fun other hOther => hFits other (List.mem_cons_of_mem _ hOther))
          hTail fun pair hPair => hSub (List.mem_cons_of_mem _ hPair))

end Entry

end Compiled

namespace Deployed

variable {declarations : Declarations} {request : Request} {naming : Naming}
  {encoder : Encoder} {primitives : Primitives}

/-- The steps of the encode function of a live type tile its packed type. -/
private theorem exists_tiles (h : Deployed declarations request naming encoder primitives)
    {entry : TypeEntry}
    (hEntry : entry ∈ naming.graph.entriesOf (naming.graph.postOrder naming.graph.roots))
    (hStruct : entry.isUnion = false) (hLive : Compiled.Live encoder entry)
    {function : EncodeFunction} (hMade : naming.encodeFunction entry = .ok function) :
    ∃ size parts, encoder.staticSize function.source = .ok size ∧
      encoder.Tiles primitives function.source 0 function.steps parts size ∧
      (function.varLen = false → ∀ part ∈ parts, part = none) ∧
      (function.varLen = true →
        ∃ sizes, encoder.program.sizeFunction? function.source = some sizes ∧
          sizes.terms = parts.filterMap id) := by
  obtain ⟨hSource, hVarLen, hSteps⟩ := Naming.encodeFunction_eq_ok hMade
  have hGraph := TypeGraph.entriesOf_subset hEntry
  obtain ⟨parts, hParts, hFixed, hTerms⟩ := h.compiled.exists_parts hGraph hLive
  obtain ⟨type, hType, hPacks⟩ := h.compiled.exists_type hEntry
  obtain ⟨hTypeSource, hKind, hPacked⟩ := Naming.packedType_eq_ok hPacks
  obtain ⟨size, fields, hSize, hFrom, hPlaces⟩ :=
    h.compiled.exists_layout h.layouts h.fields hType
  rw [hKind.trans (AggregateKind.isUnion_eq_false.1 hStruct)] at hFrom
  rw [hSource, hVarLen]
  rw [hTypeSource] at hSize hPlaces
  refine ⟨size, parts, hSize, ?_, hFixed, hTerms⟩
  refine Compiled.tiles_of_fieldsFrom hPlaces hPacked hSteps hParts ?_ hFrom fun _ hPair => hPair
  intro member hMem packed step part offset layout hPack hStep hPart hLayout
  obtain ⟨found, hFound, hFoundMembers⟩ := h.compiled.declared_of_packedType hEntry hPacks
  have hDecided := h.decided type hType found hFound member (hFoundMembers ▸ hMem)
  exact h.compiled.stepFits h.layouts h.fields hEntry hMem hDecided hStep hPack hPart hLayout

/-- The encode function of a live type is ready, as high as its place in the program. -/
private theorem ready_of_split (h : Deployed declarations request naming encoder primitives)
    (height : Nat) :
    ∀ before function after, before.length < height →
      encoder.program.encodeFunctions = before ++ function :: after →
      (function.varLen = true → (encoder.program.sizeFunction? function.source).isSome) →
      encoder.Ready primitives height function := by
  induction height with
  | zero =>
      intro before function after hLength
      omega
  | succ height ih =>
      intro before function after hLength hSplit hSized
      obtain ⟨lead, entry, tail, hOrder, hStruct, hMade, hEarlier⟩ := h.compiled.exists_order hSplit
      obtain ⟨hSource, hVarLen, hSteps⟩ := Naming.encodeFunction_eq_ok hMade
      have hLive : Compiled.Live encoder entry := by
        unfold Compiled.Live
        rw [← hSource, ← hVarLen]
        exact hSized
      have hEntry : entry ∈ naming.graph.entriesOf (naming.graph.postOrder naming.graph.roots) := by
        rw [hOrder]
        simp
      refine ⟨h.exists_tiles hEntry hStruct hLive hMade, ?_⟩
      -- What a step calls stands before the function, so it is ready one level below.
      intro step hStep copy hCopy source hCallee
      obtain ⟨member, hMem, hLowered⟩ := exists_left_of_mem hSteps hStep
      obtain ⟨callee, hLead, hName, hCalleeStruct, hFlag, hCalleeLive⟩ :=
        h.compiled.callee_of_step hOrder hLive hMem hLowered hCopy hCallee
      obtain ⟨called, hCalled, hCalledMade⟩ := hEarlier callee hLead hCalleeStruct
      obtain ⟨hCalledSource, hCalledVarLen, _⟩ := Naming.encodeFunction_eq_ok hCalledMade
      have hFind := h.compiled.encodeFunction?_of_order hSplit hCalled (hCalledSource.trans hName)
      refine ⟨called, Encoder.encodeFunction_eq_ok.2 hFind, hCalledVarLen.trans hFlag, ?_⟩
      obtain ⟨front, back, rfl⟩ := List.append_of_mem hCalled
      refine ih front called (back ++ function :: after) ?_ (by rw [hSplit]; simp) ?_
      · simp at hLength
        omega
      · rw [hCalledVarLen, hCalledSource]
        exact hCalleeLive

/-- **Readiness of compiled programs**: if a compiled program has distinct field names and
encodes variable-length arrays as such and its layout exists, every encode function whose
size function exists, if it needs one, is ready. -/
theorem ready (h : Deployed declarations request naming encoder primitives)
    {function : EncodeFunction}
    (hFunction : function ∈ encoder.program.encodeFunctions)
    (hSized : function.varLen = true →
      (encoder.program.sizeFunction? function.source).isSome) :
    encoder.Ready primitives encoder.program.encodeFunctions.length function := by
  obtain ⟨before, after, hSplit⟩ := List.append_of_mem hFunction
  refine h.ready_of_split _ before function after ?_ hSplit hSized
  rw [hSplit, List.length_append, List.length_cons]
  omega

/-- What encoding a root starts from: a structure whose encode function is ready. -/
theorem ready_of_entryPoint (h : Deployed declarations request naming encoder primitives)
    {root : String} {point : EntryPoint}
    (hPoint : encoder.program.entryPoint? root = some point) :
    ∃ function, encoder.encodeFunction point.source = .ok function ∧
      function.source = point.source ∧ function.varLen = point.varLen ∧
      (point.size = .static ↔ point.varLen = false) ∧
      encoder.Ready primitives encoder.program.encodeFunctions.length function := by
  have hMem := List.mem_of_find?_eq_some hPoint
  obtain ⟨entry, hEntry, hMade⟩ := exists_left_of_mem h.compiled.entryPoints hMem
  obtain ⟨hSource, hVarLen, hSize⟩ := Naming.entryPoint_eq_ok hMade
  obtain ⟨id, hid, hGet⟩ := TypeGraph.mem_entriesOf.1 hEntry
  have hOrder := (h.compiled.sound.enumeration_postOrder _).starts_mem id hid entry hGet
  obtain ⟨function, hFunction, hEncodes⟩ :=
    h.compiled.exists_encode_function hOrder (h.compiled.structs entry hEntry)
  obtain ⟨hFunctionSource, hFunctionVarLen, _⟩ := Naming.encodeFunction_eq_ok hEncodes
  have hSame : function.source = point.source := hFunctionSource.trans hSource.symm
  refine ⟨function,
    Encoder.encodeFunction_eq_ok.2 (h.compiled.encodeFunction?_eq_some.2 ⟨hFunction, hSame⟩), hSame,
    hFunctionVarLen.trans hVarLen.symm, by rw [hSize, hVarLen], h.ready hFunction fun hCase => ?_⟩
  rw [hFunctionSource]
  exact h.compiled.sizeFunction?_of_root hEntry (hFunctionVarLen ▸ hCase)

end Deployed

end WireSchema
