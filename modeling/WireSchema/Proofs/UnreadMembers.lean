import WireSchema.Proofs.AlikeValues

/-!
# What an encoding does not read

Source values that are alike, but for unselected union members and for constants, encode
alike.  A member of a structure is a constant if the first of its directives on encoding is a
`fixedValue`; its source value is not read, unless another member needs it as its length
or discriminator, or it is a variable-length structure, whose size is still counted.  The
members of a union are copied whatever directives are on them.

## Main results

* `Compiled.blind`: the encode functions and size functions of a compiled program are
  blind to what alike values differ in.
* `unselected_members_unread`: unselected union members do not reach the output.
* `constants_unread`: the source values of constants do not reach the output.
* `Sample.union_constant_read`: the source value of a union member does.
-/

namespace WireSchema

/-- The sibling that a directive refers to. -/
def Directive.sibling? : Directive → Option String
  | .varLenArray lengthField => some lengthField
  | .unionVariant discriminator _ => some discriminator
  | _ => none

theorem Member.varLenArray_mem {member : Member} {lengthField : String}
    (h : member.lengthField? = some lengthField) :
    .varLenArray lengthField ∈ member.directives := by
  obtain ⟨directive, hMem, hIs⟩ := List.exists_of_findSome?_eq_some h
  cases directive <;> cases hIs
  exact hMem

/-- What a type holds under this name has a constant for it, and no sibling needs it. -/
structure Declarations.FixedAt (declarations : Declarations) (index : DirectiveIndex)
    (source name : String) : Prop where
  fixed : ∃ member, declarations.MemberAt index source name member ∧ member.fixedValue? ≠ none
  unnamed : ∀ sibling member, declarations.MemberAt index source sibling member →
    ∀ directive ∈ member.directives, directive.sibling? ≠ some name

/-- The encoding writes a constant under this name, and does not read the source value. -/
structure Declarations.ConstantAt (declarations : Declarations) (index : DirectiveIndex)
    (source name : String) : Prop extends declarations.FixedAt index source name where
  /-- The members of a union are copied. -/
  struct : ∀ declaration, declarations.get? source = some declaration → declaration.kind = .struct
  /-- The first directive on encoding decides. -/
  decisive : ∀ member, declarations.MemberAt index source name member →
    ∃ value, member.decisive? = some (.fixedValue value)
  /-- A plain variable-length structure is counted by its size function. -/
  uncounted : ∀ member nested, declarations.MemberAt index source name member →
    member.typeOverride? = none → member.arrayLength? = none → member.nested? = some nested →
    ¬ declarations.IsVarLen index nested

/-- A member that another directive decides, or none, is read. -/
theorem Declarations.not_constantAt {declarations : Declarations} {index : DirectiveIndex}
    {source name : String} {member : Member}
    (hAt : declarations.MemberAt index source name member)
    (hOther : ∀ value, member.decisive? ≠ some (.fixedValue value)) :
    ¬ declarations.ConstantAt index source name := by
  intro hConstant
  obtain ⟨value, hFixed⟩ := hConstant.decisive member hAt
  exact hOther value hFixed

namespace Copy

variable {same : String → Option Value → Option Value → Prop}

theorem reads_refl (hRefl : ∀ source a, same source a a) (copy : Copy) (a : Option Value) :
    copy.Reads same a a := by
  cases copy with
  | scalar => exact SameNumber.refl a
  | array length => exact fun i => SameNumber.refl _
  | record source function varLen => exact hRefl source a
  | recordArray source function length => exact fun i => hRefl source _

end Copy

section Compiled

variable {declarations : Declarations} {request : Request} {naming : Naming}

namespace Compiled

/-- A member of an entry is one that the type has. -/
theorem memberAt {program : Program} (h : Compiled declarations request naming program)
    {entry : TypeEntry} (hEntry : entry ∈ naming.graph.entries) {member : Member}
    (hMember : member ∈ entry.members) :
    declarations.MemberAt naming.index entry.name member.name member := by
  obtain ⟨declaration, hGet, _, hMembers⟩ := h.sound.declared entry hEntry
  exact ⟨rfl, declaration, hGet, hMembers ▸ hMember⟩

/-- The kind of an entry is that of its declaration. -/
theorem kind_of_declared {program : Program} (h : Compiled declarations request naming program)
    {entry : TypeEntry} (hEntry : entry ∈ naming.graph.entries) {declaration : Declaration}
    (hGet : declarations.get? entry.name = some declaration) : entry.kind = declaration.kind := by
  obtain ⟨same, hSame, hKind, _⟩ := h.sound.declared entry hEntry
  rw [Option.some.inj (hGet.symm.trans hSame)]
  exact hKind

/-- A member that is a union is nested in the graph as one. -/
theorem nested?_of_isUnion {program : Program} (h : Compiled declarations request naming program)
    {entry : TypeEntry} (hEntry : entry ∈ naming.graph.entries) {member : Member}
    (hMember : member ∈ entry.members) {discriminator name : String}
    {mapping : List (Literal × String)}
    (hUnion : member.IsUnion declarations discriminator mapping name) :
    ∃ union, naming.graph.nested? member = some union ∧ union.isUnion = true := by
  obtain ⟨union, hGraph, hNested, rfl⟩ := h.nested?_eq_some hEntry hMember hUnion.nested
  obtain ⟨declaration, hGet, hKind⟩ := hUnion.kind
  refine ⟨union, hNested, ?_⟩
  rw [Outline.isUnion, h.kind_of_declared hGraph hGet, hKind]
  rfl

variable {encoder : Encoder} {ignored : String → String → Prop} {entry : TypeEntry}
  {member : Member} {a b v w : Option Value}

/-- A copied member is no union. -/
theorem not_isUnion_of_copy {program : Program}
    (h : Compiled declarations request naming program) (hEntry : entry ∈ naming.graph.entries)
    (hMember : member ∈ entry.members) {copy : Copy}
    (hCopy : naming.copy entry.toOutline member = .ok copy) (discriminator : String)
    (mapping : List (Literal × String)) (name : String) :
    ¬ member.IsUnion declarations discriminator mapping name := by
  intro hUnion
  obtain ⟨union, hNested, hKind⟩ := h.nested?_of_isUnion hEntry hMember hUnion
  have hOverride : member.typeOverride? = none := by
    simpa [Member.decides] using List.find?_some hUnion.decisive
  rcases Naming.copy_eq_ok hCopy with ⟨hNo | hNo, _⟩ | ⟨other, _, _, hOther, hStruct, _⟩
  · exact hNo hOverride
  · rw [hNested] at hNo
    cases hNo
  · rw [hNested] at hOther
    cases hOther
    rw [hKind] at hStruct
    cases hStruct

/-- What is equal, or alike as the nested type of a member, is alike to the copy of the
member. -/
theorem copy_reads {owner : Outline} {copy : Copy}
    (hCopy : naming.copy owner member = .ok copy)
    (hAlike : a = b ∨ ∃ nested, member.nested? = some nested ∧
      AlikeOption declarations naming.index encoder ignored nested a b) :
    copy.Reads (AlikeOption declarations naming.index encoder ignored) a b := by
  obtain rfl | ⟨nested, hName, hAlike⟩ := hAlike
  · exact copy.reads_refl (fun _ _ => .inl rfl) a
  · have hPrimitive : member.primitiveCopy.Reads
        (AlikeOption declarations naming.index encoder ignored) a b := by
      unfold Member.primitiveCopy
      split
      · exact hAlike.sameNumber
      · exact fun i => (hAlike.items i).sameNumber
    have hSame : ∀ {other : TypeEntry}, naming.graph.nested? member = some other →
        other.name = nested := by
      intro other hOther
      have hOtherName := (TypeGraph.nested?_eq_some hOther).2
      exact Option.some.inj (hOtherName.symm.trans hName)
    rcases Naming.copy_eq_ok hCopy with
      ⟨_, rfl⟩ | ⟨other, function, _, hOther, _, ⟨_, rfl⟩ | ⟨length, _, _, rfl⟩⟩
    · exact hPrimitive
    · obtain rfl := hSame hOther
      exact hAlike
    · obtain rfl := hSame hOther
      exact hAlike.items

/-! ## Steps -/

/-- A selected arm belongs to the pair of the mapping that the discriminator selects. -/
theorem selects_of_selectArm {union : Outline} {field : String} {selector : Int64}
    {mapping : List (Literal × String)} {arms : List UnionArm} {arm : UnionArm}
    (hArms : List.Forall₂ (fun pair arm => naming.unionArm union pair.1 pair.2 = .ok arm)
      mapping arms)
    (hArm : encoder.selectArm field selector arms = .ok arm) :
    encoder.Selects selector mapping arm.member := by
  induction hArms with
  | nil => cases hArm
  | @cons pair head mapping arms hHead _ ih =>
      obtain ⟨variant, copy, _, _, rfl⟩ := Naming.unionArm_eq_ok hHead
      obtain ⟨value, hValue, hArm⟩ := bind_eq_ok.1 hArm
      split at hArm
      · rename_i hSame
        cases hArm
        exact ⟨[], pair.1, mapping, rfl, hSame ▸ hValue, by simp⟩
      · rename_i hOther
        obtain ⟨before, literal, after, rfl, hLiteral, hBefore⟩ := ih hArm
        refine ⟨pair :: before, literal, after, rfl, hLiteral, ?_⟩
        exact List.forall_mem_cons.2 ⟨⟨value, hValue, hOther⟩, hBefore⟩

/-- The step of a variable-length array reads nothing that alike values differ in. -/
theorem varLenStep_reads (h : Compiled declarations request naming encoder.program)
    (hIgnored : ∀ source name, ignored source name →
      declarations.ConstantAt naming.index source name)
    (hEntry : entry ∈ naming.graph.entries) (hMember : member ∈ entry.members)
    {lengthField : String} (hDecisive : member.decisive? = some (.varLenArray lengthField))
    {step : Step} (hStep : naming.varLenStep entry.toOutline member lengthField = .ok step)
    (hAlike : AlikeOption declarations naming.index encoder ignored entry.name v w) :
    step.Reads (AlikeOption declarations naming.index encoder ignored) encoder v w := by
  have hAt := h.memberAt hEntry hMember
  obtain ⟨element, copy, _, rfl, hCopy⟩ := Naming.varLenStep_eq_ok hStep
  constructor
  · refine (hAlike.field lengthField).sameNumber fun hConstant => ?_
    have hDirective := List.mem_of_find?_eq_some hDecisive
    exact (hIgnored _ _ hConstant).unnamed _ member hAt _ hDirective rfl
  · have hRead : ¬ ignored entry.name member.name := fun hConstant =>
      Declarations.not_constantAt hAt (by simp [hDecisive]) (hIgnored _ _ hConstant)
    have hPlain : ∀ discriminator mapping union,
        ¬ member.IsUnion declarations discriminator mapping union :=
      fun _ _ _ hUnion => by cases hDecisive.symm.trans hUnion.decisive
    intro i
    obtain hEq | ⟨nested, hName, hNested⟩ := (hAlike.field member.name).copied hAt hRead hPlain
    · rw [hEq]
      exact copy.reads_refl (fun _ _ => .inl rfl) _
    · obtain ⟨_, rfl⟩ | ⟨other, function, hOther, _, _, rfl⟩ := hCopy
      · exact (hNested.items i).sameNumber
      · have hOtherName := (TypeGraph.nested?_eq_some hOther).2
        obtain rfl : other.name = nested := Option.some.inj (hOtherName.symm.trans hName)
        exact hNested.items i

/-- The step of a union reads of the union only the selected member. -/
theorem unionStep_reads (h : Compiled declarations request naming encoder.program)
    (hIgnored : ∀ source name, ignored source name →
      declarations.ConstantAt naming.index source name)
    (hEntry : entry ∈ naming.graph.entries) (hMember : member ∈ entry.members)
    {discriminator : String} {mapping : List (Literal × String)}
    (hDecisive : member.decisive? = some (.unionVariant discriminator mapping))
    {step : Step} (hStep : naming.unionStep entry.toOutline member discriminator mapping = .ok step)
    (hAlike : AlikeOption declarations naming.index encoder ignored entry.name v w) :
    step.Reads (AlikeOption declarations naming.index encoder ignored) encoder v w := by
  have hAt := h.memberAt hEntry hMember
  obtain ⟨union, record, arms, hNested, hKind, _, _, hArms, rfl⟩ := Naming.unionStep_eq_ok hStep
  obtain ⟨hGraph, hName⟩ := TypeGraph.nested?_eq_some hNested
  obtain ⟨declaration, hGet, hSame, _⟩ := h.sound.declared union hGraph
  have hUnionKind : union.kind = .union := AggregateKind.isUnion_eq_true.1 hKind
  have hUnion : member.IsUnion declarations discriminator mapping union.name :=
    ⟨hDecisive, hName, declaration, hGet, hSame.symm.trans hUnionKind⟩
  constructor
  · refine (hAlike.field discriminator).sameNumber fun hConstant => ?_
    have hDirective := List.mem_of_find?_eq_some hDecisive
    exact (hIgnored _ _ hConstant).unnamed _ member hAt _ hDirective rfl
  · intro selector arm hSelector hArm
    have hRead : ¬ ignored entry.name member.name := fun hConstant =>
      Declarations.not_constantAt hAt (by simp [hDecisive]) (hIgnored _ _ hConstant)
    have hSelected := (hAlike.field member.name).selected hAt hRead hUnion hSelector
      (selects_of_selectArm hArms hArm)
    -- The arm copies a member of the union, and members of unions are not ignored.
    obtain ⟨pair, _, hMade⟩ := exists_left_of_mem hArms (Encoder.mem_of_selectArm hArm)
    obtain ⟨variant, copy, hVariant, hCopy, rfl⟩ := Naming.unionArm_eq_ok hMade
    have hVariantMem := List.mem_of_find?_eq_some hVariant
    have hVariantName := List.find?_some hVariant
    have hVariantAt := h.memberAt hGraph hVariantMem
    rw [eq_of_beq hVariantName] at hVariantAt
    have hVariantRead : ¬ ignored union.name pair.2 := by
      intro hConstant
      have hStruct := (hIgnored _ _ hConstant).struct declaration hGet
      rw [← hSame, hUnionKind] at hStruct
      cases hStruct
    exact copy_reads hCopy (hSelected.copied hVariantAt hVariantRead
      (h.not_isUnion_of_copy hGraph hVariantMem hCopy))

/-- The step of a member reads nothing that alike values differ in. -/
theorem step_reads (h : Compiled declarations request naming encoder.program)
    (hIgnored : ∀ source name, ignored source name →
      declarations.ConstantAt naming.index source name)
    (hEntry : entry ∈ naming.graph.entries) (hMember : member ∈ entry.members) {step : Step}
    (hStep : naming.step entry.toOutline member = .ok step)
    (hAlike : AlikeOption declarations naming.index encoder ignored entry.name v w) :
    step.Reads (AlikeOption declarations naming.index encoder ignored) encoder v w := by
  rcases Naming.step_eq_ok hStep with
    ⟨hDecisive, copy, hCopy, rfl⟩ | ⟨value, _, rfl⟩ | ⟨lengthField, hDecisive, _, hVarLen⟩ |
      ⟨discriminator, mapping, hDecisive, _, hUnion⟩
  · have hAt := h.memberAt hEntry hMember
    have hRead : ¬ ignored entry.name member.name := fun hConstant =>
      Declarations.not_constantAt hAt (by simp [hDecisive]) (hIgnored _ _ hConstant)
    exact copy_reads hCopy ((hAlike.field member.name).copied hAt hRead
      (h.not_isUnion_of_copy hEntry hMember hCopy))
  · rcases Naming.fixedStep_cases member value with hFixed | hFixed <;> rw [hFixed] <;> trivial
  · exact h.varLenStep_reads hIgnored hEntry hMember hDecisive hVarLen hAlike
  · exact h.unionStep_reads hIgnored hEntry hMember hDecisive hUnion hAlike

/-! ## Terms -/

/-- A term of a size function reads nothing that alike values differ in. -/
theorem sizeTerm?_reads (h : Compiled declarations request naming encoder.program)
    (hIgnored : ∀ source name, ignored source name →
      declarations.ConstantAt naming.index source name)
    (hEntry : entry ∈ naming.graph.entries) (hMember : member ∈ entry.members) {term : SizeTerm}
    (hTerm : naming.sizeTerm? entry.toOutline member = .ok (some term))
    (hAlike : AlikeOption declarations naming.index encoder ignored entry.name v w) :
    term.Reads (AlikeOption declarations naming.index encoder ignored) v w := by
  have hAt := h.memberAt hEntry hMember
  rcases Naming.sizeTerm?_eq_ok hTerm with
    ⟨_, hNone⟩ | ⟨lengthField, element, _, hLength, _, _, hSome⟩ |
      ⟨nested, target, function, hOverride, _, hNested, hVarLen, hStruct, hPlain, hSome⟩
  · cases hNone
  · cases hSome
    refine (hAlike.field lengthField).sameNumber fun hConstant => ?_
    have hDirective := Member.varLenArray_mem hLength
    exact (hIgnored _ _ hConstant).unnamed _ member hAt _ hDirective rfl
  · cases hSome
    obtain ⟨hGraph, hName⟩ := TypeGraph.nested?_eq_some hNested
    have hRead : ¬ ignored entry.name member.name := by
      intro hConstant
      refine (hIgnored _ _ hConstant).uncounted member nested.name hAt hOverride hPlain hName ?_
      exact (h.sound.varLen_iff_isVarLen hGraph).1 hVarLen
    have hNoUnion : ∀ discriminator mapping union,
        ¬ member.IsUnion declarations discriminator mapping union := by
      intro discriminator mapping union hUnion
      obtain ⟨other, hOther, hKind⟩ := h.nested?_of_isUnion hEntry hMember hUnion
      rw [hNested] at hOther
      cases hOther
      rw [hStruct] at hKind
      cases hKind
    obtain hEq | ⟨name, hSame, hInner⟩ := (hAlike.field member.name).copied hAt hRead hNoUnion
    · exact .inl hEq
    · obtain rfl : nested.name = name := Option.some.inj (hName.symm.trans hSame)
      exact hInner

/-- **Blindness**: no function of a compiled program reads what alike values differ in. -/
theorem blind (h : Compiled declarations request naming encoder.program)
    (hIgnored : ∀ source name, ignored source name →
      declarations.ConstantAt naming.index source name) :
    encoder.Blind (AlikeOption declarations naming.index encoder ignored) where
  isRecord := fun _ _ _ hAlike => hAlike.isRecord_eq
  steps := by
    intro function hFunction v w hAlike step hStep
    obtain ⟨entry, hEntry, hSource, _, member, hMember, hLowered⟩ :=
      h.exists_stepped_member hFunction hStep
    exact h.step_reads hIgnored hEntry hMember hLowered (hSource ▸ hAlike)
  terms := by
    intro sizes hSizes v w hAlike term hTerm
    obtain ⟨entry, hGraph, hSource, hTerms⟩ := h.sizeTerms_of_mem hSizes
    obtain ⟨member, hMember, hAdds⟩ := Naming.exists_counted_member hTerms hTerm
    exact h.sizeTerm?_reads hIgnored hGraph hMember hAdds (hSource ▸ hAlike)

end Compiled

/-! ## Results -/

/-- **Unselected union members**: for every program that compiles, every table of primitive
types, constants and limits, values that are alike but for union members that no discriminator
selects have the same encoded size and the same encoding, and leave every buffer the same. -/
theorem unselected_members_unread {index : DirectiveIndex} {settings : Settings}
    {program : Program} {primitives : Primitives} {encoder : Encoder}
    (hCompile : compile declarations index settings request = .ok program)
    (hEncoder : encoder.IsFor program primitives) {root : String} {v w : Value}
    (hAlike : Alike declarations index encoder (fun _ _ => False) root v w) :
    encoder.encodedSize root v = encoder.encodedSize root w ∧
      encoder.encode root v = encoder.encode root w ∧
      ∀ buffer, encoder.encodeInto root v buffer = encoder.encodeInto root w buffer := by
  obtain ⟨rfl, _⟩ := hEncoder.layouts
  obtain ⟨naming, rfl, hCompiled⟩ := compiled_of_compile hCompile
  have hBlind : encoder.Blind (AlikeOption declarations naming.index encoder fun _ _ => False) :=
    hCompiled.blind fun _ _ hFalse => hFalse.elim
  exact hBlind.encodes_alike hCompiled.calleeFirst (.inr ⟨v, w, rfl, rfl, hAlike⟩)

end Compiled

namespace Sample

/-- A batch whose kind selects the item of its body.  The body has a code, too. -/
def withCode (code : Int64) : Value :=
  .record [("kind", .int 1),
    ("body", .record [("code", .int code), ("item", .record [("id", .int 513)])]),
    ("count", .int 0)]

theorem batch_declared : declarations.get? "chreTestBatch" = some batch := rfl

/-- The arms of the body, by the kind. -/
def bodyMapping : List (Literal × String) := [(.int 0, "code"), (.int 1, "item")]

def bodyMember : Member :=
  ⟨"body", ⟨"union chreTestVariant", .plain⟩, [.unionVariant "kind" bodyMapping]⟩

theorem eq_bodyMember {member : Member}
    (h : declarations.MemberAt index "chreTestBatch" "body" member) : member = bodyMember :=
  h.eq_of_filter batch_declared rfl

theorem bodyMember_isUnion :
    bodyMember.IsUnion declarations "kind" bodyMapping "chreTestVariant" :=
  ⟨rfl, by decide +kernel,
    ⟨.union, [⟨"code", ⟨"uint32_t", .plain⟩⟩, ⟨"item", ⟨"struct chreTestItem", .plain⟩⟩]⟩, rfl, rfl⟩

theorem withCode_alike (code other : Int64) :
    Alike declarations index encoder (fun _ _ => False) "chreTestBatch" (withCode code)
      (withCode other) := by
  refine Alike.of_field [("kind", .int 1)] ?_
  refine .union rfl rfl ⟨bodyMember, rfl, batch, batch_declared, by decide⟩ ?_ ?_
  · intro member hMember
    rw [eq_bodyMember hMember]
    exact ⟨"kind", bodyMapping, _, bodyMember_isUnion, rfl⟩
  · intro member discriminator mapping union selector target hMember hUnion hSelector hSelects
    rw [eq_bodyMember hMember] at hUnion
    have hDecisive := hUnion.decisive.symm.trans bodyMember_isUnion.decisive
    cases hDecisive
    cases hSelector
    -- The first arm is for another kind, so the selected one is the item.
    obtain ⟨before, literal, after, hSplit, hLiteral, _⟩ := hSelects
    rcases before with _ | ⟨first, _ | ⟨second, rest⟩⟩
    · cases hSplit
      cases hLiteral
    · cases hSplit
      exact .same rfl
    · simp [bodyMapping] at hSplit

theorem unselected_code_unread :
    Alike declarations index encoder (fun _ _ => False) "chreTestBatch" (withCode 1) (withCode 2) ∧
      encoder.encodedSize "chreTestBatch" (withCode 1) =
        encoder.encodedSize "chreTestBatch" (withCode 2) ∧
      encoder.encode "chreTestBatch" (withCode 1) = encoder.encode "chreTestBatch" (withCode 2) ∧
      ∀ buffer, encoder.encodeInto "chreTestBatch" (withCode 1) buffer =
        encoder.encodeInto "chreTestBatch" (withCode 2) buffer :=
  ⟨withCode_alike 1 2, unselected_members_unread compiles isFor (withCode_alike 1 2)⟩

end Sample

section Compiled

variable {declarations : Declarations} {request : Request}

/-- **Constants**: values that are alike but for members that are written as constants, and for
union members that no discriminator selects, have the same encoded size and the same encoding,
and leave every buffer the same. -/
theorem constants_unread {index : DirectiveIndex} {settings : Settings} {program : Program}
    {primitives : Primitives} {encoder : Encoder}
    (hCompile : compile declarations index settings request = .ok program)
    (hEncoder : encoder.IsFor program primitives) {root : String} {v w : Value}
    (hAlike : Alike declarations index encoder (declarations.ConstantAt index) root v w) :
    encoder.encodedSize root v = encoder.encodedSize root w ∧
      encoder.encode root v = encoder.encode root w ∧
      ∀ buffer, encoder.encodeInto root v buffer = encoder.encodeInto root w buffer := by
  obtain ⟨rfl, _⟩ := hEncoder.layouts
  obtain ⟨naming, rfl, hCompiled⟩ := compiled_of_compile hCompile
  have hBlind : encoder.Blind
      (AlikeOption declarations naming.index encoder (declarations.ConstantAt naming.index)) :=
    hCompiled.blind fun _ _ hConstant => hConstant
  exact hBlind.encodes_alike hCompiled.calleeFirst (.inr ⟨v, w, rfl, rfl, hAlike⟩)

end Compiled

namespace Sample

/-- A batch with source values for its reserved bytes. -/
def withReserved (bytes : List Value) : Value :=
  .record [("kind", .int 0), ("reserved", .array bytes), ("count", .int 0)]

def reservedMember : Member := ⟨"reserved", ⟨"uint8_t", .array 2⟩, [.fixedValue (.int 7)]⟩

theorem eq_reservedMember {member : Member}
    (h : declarations.MemberAt index "chreTestBatch" "reserved" member) : member = reservedMember :=
  h.eq_of_filter batch_declared rfl

theorem reserved_constantAt : declarations.ConstantAt index "chreTestBatch" "reserved" where
  fixed := ⟨reservedMember, ⟨rfl, batch, batch_declared, by decide⟩, Option.some_ne_none _⟩
  unnamed := by
    intro sibling member hAt
    have hNone : ∀ other ∈ batch.members index "chreTestBatch",
        ∀ directive ∈ other.directives, directive.sibling? ≠ some "reserved" := by decide
    exact hNone member (hAt.of_get? batch_declared).1
  struct := by
    intro declaration hGet
    rw [← Option.some.inj (batch_declared.symm.trans hGet)]
    rfl
  decisive := by
    intro member hAt
    rw [eq_reservedMember hAt]
    exact ⟨.int 7, rfl⟩
  uncounted := by
    intro member nested hAt _ hPlain
    rw [eq_reservedMember hAt] at hPlain
    cases hPlain

theorem withReserved_alike (bytes others : List Value) :
    Alike declarations index encoder (declarations.ConstantAt index) "chreTestBatch"
      (withReserved bytes) (withReserved others) :=
  Alike.of_field [("kind", .int 0)] (.ignored reserved_constantAt)

theorem reserved_unread :
    encoder.encodedSize "chreTestBatch" (withReserved [.int 1]) =
        encoder.encodedSize "chreTestBatch" (withReserved []) ∧
      encoder.encode "chreTestBatch" (withReserved [.int 1]) =
        encoder.encode "chreTestBatch" (withReserved []) ∧
      ∀ buffer, encoder.encodeInto "chreTestBatch" (withReserved [.int 1]) buffer =
        encoder.encodeInto "chreTestBatch" (withReserved []) buffer :=
  constants_unread compiles isFor (withReserved_alike _ _)

/-- A union whose only member is to be a constant. -/
def sealedUnion : Declaration := ⟨.union, [⟨"a", ⟨"uint8_t", .plain⟩⟩]⟩

def sealedBatch : Declaration :=
  ⟨.struct, [⟨"kind", ⟨"uint8_t", .plain⟩⟩, ⟨"body", ⟨"union chreTestVariant", .plain⟩⟩]⟩

def sealed : Declarations :=
  Table.ofList [("chreTestBatch", sealedBatch), ("chreTestVariant", sealedUnion)]

def sealedIndex : DirectiveIndex :=
  ⟨[ ⟨"chreTestBatch", "body", .unionVariant "kind" [(.int 1, "a")]⟩
   , ⟨"chreTestVariant", "a", .fixedValue (.int 0)⟩ ]⟩

def sealedProgram : Program := (compileWithin 20 sealed sealedIndex {} request).getD default

def sealedEncoder : Encoder :=
  ⟨sealedProgram,
    (Layouts.ofProgram Primitives.standard sealedProgram).toOption.getD Table.empty,
    Table.empty, payloadLimit⟩

/-- A batch with a source value for the constant. -/
def withConstant (number : Int64) : Value :=
  .record [("kind", .int 1), ("body", .record [("a", .int number)])]

theorem sealedUnion_declared : sealed.get? "chreTestVariant" = some sealedUnion := rfl

theorem sealedBatch_declared : sealed.get? "chreTestBatch" = some sealedBatch := rfl

theorem sealed_fixedAt : sealed.FixedAt sealedIndex "chreTestVariant" "a" where
  fixed := ⟨⟨"a", ⟨"uint8_t", .plain⟩, [.fixedValue (.int 0)]⟩,
    ⟨rfl, sealedUnion, sealedUnion_declared, by decide⟩, Option.some_ne_none _⟩
  unnamed := by
    intro sibling member hAt
    have hNone : ∀ other ∈ sealedUnion.members sealedIndex "chreTestVariant",
        ∀ directive ∈ other.directives, directive.sibling? ≠ some "a" := by decide
    exact hNone member (hAt.of_get? sealedUnion_declared).1

def sealedBody : Member :=
  ⟨"body", ⟨"union chreTestVariant", .plain⟩, [.unionVariant "kind" [(.int 1, "a")]]⟩

theorem sealedBody_isUnion :
    sealedBody.IsUnion sealed "kind" [(.int 1, "a")] "chreTestVariant" :=
  ⟨rfl, by decide +kernel, sealedUnion, sealedUnion_declared, rfl⟩

theorem eq_sealedBody {member : Member}
    (h : sealed.MemberAt sealedIndex "chreTestBatch" "body" member) : member = sealedBody :=
  h.eq_of_filter sealedBatch_declared rfl

theorem withConstant_alike (number other : Int64) :
    Alike sealed sealedIndex sealedEncoder (sealed.FixedAt sealedIndex) "chreTestBatch"
      (withConstant number) (withConstant other) := by
  refine Alike.of_field [("kind", .int 1)] ?_
  refine .union rfl rfl ⟨sealedBody, rfl, sealedBatch, sealedBatch_declared, by decide⟩ ?_ ?_
  · intro member hMember
    rw [eq_sealedBody hMember]
    exact ⟨"kind", [(.int 1, "a")], _, sealedBody_isUnion, rfl⟩
  · intro member discriminator mapping union selector target hMember hUnion _ hSelects
    rw [eq_sealedBody hMember] at hUnion
    cases hUnion.decisive.symm.trans sealedBody_isUnion.decisive
    cases hUnion.nested.symm.trans sealedBody_isUnion.nested
    -- The mapping has one pair, so what it selects is the constant.
    obtain ⟨before, literal, after, hSplit, _⟩ := hSelects
    have hPair : (literal, target) ∈ [(Literal.int 1, "a")] := by simp [hSplit]
    cases List.mem_singleton.1 hPair
    exact .ignored sealed_fixedAt

/-- The source value of a union member is written, although the directive on it and the comment
in the generated declaration say that it is ignored. -/
theorem union_constant_read :
    compile sealed sealedIndex {} request = .ok sealedProgram ∧
      sealedEncoder.IsFor sealedProgram Primitives.standard ∧
      (∃ type ∈ sealedProgram.types, type.source = "chreTestVariant" ∧
        type.members.map PackedMember.comment = [some "Input ignored; always set to 0"]) ∧
      Alike sealed sealedIndex sealedEncoder (sealed.FixedAt sealedIndex) "chreTestBatch"
        (withConstant 7) (withConstant 8) ∧
      sealedEncoder.encode "chreTestBatch" (withConstant 7) = .ok #[1, 7] ∧
      sealedEncoder.encode "chreTestBatch" (withConstant 8) = .ok #[1, 8] :=
  ⟨compile_getD (by decide +kernel), Encoder.isFor_of_layouts (eq_ok_getD (by decide +kernel)),
    by decide +kernel, withConstant_alike 7 8, eq_ok_of_toOption (by decide +kernel),
    eq_ok_of_toOption (by decide +kernel)⟩

end Sample

end WireSchema
