import WireSchema.Proofs.RestatedValues
import WireSchema.Proofs.UnreadMembers

/-!
# What counts is what a value says

Values that say the same encode alike, however they are written.  An encode function reads
the members of its type by their names, and reads what is absent as zero; so it is enough
that every read of a value and the same read of its rewriting stand for the same numbers,
or go on in parts that are rewritings again.

Fields are told apart by name, so the types need distinct field names.  And a length or a
discriminator is read as a number, so it has to be a member whose zero is a number.

In a type of fixed size each member is copied as its `ValueType` says, and so it is in a
variable-length type that has a size function.  No run from a root gets to any other type, which
is why `Compiled.LiveAt` is carried along with every read.

## Main results

* `Compiled.blind_to_wording`: the functions of a compiled program cannot tell a value from its
  rewriting.
* `wording_unread`: values that say the same have the same encoded size and encoding.
-/

namespace WireSchema

/-- Every length field and every discriminator is a member that is a single number. -/
def Program.ScalarSiblings (program : Program) (declarations : Declarations)
    (index : DirectiveIndex) : Prop :=
  ∀ type ∈ program.types, ∀ declaration ∈ declarations.get? type.source,
    ∀ member ∈ declaration.members index type.source, ∀ directive ∈ member.directives,
      ∀ sibling ∈ directive.sibling?, ∃ scalar ∈ declaration.members index type.source,
        scalar.name = sibling ∧ scalar.valueType = .number

namespace Member

variable {member : Member}

theorem valueType_of_override (h : member.typeOverride? ≠ none) :
    member.valueType = ⟨none, member.arrayLength?.isSome⟩ := by
  rw [valueType, if_pos (Option.isSome_iff_ne_none.2 h)]

theorem valueType_of_plain (h : member.typeOverride? = none) :
    member.valueType =
      ⟨member.nested?, member.arrayLength?.isSome || member.lengthField?.isSome⟩ := by
  rw [valueType, if_neg (by simp [h])]

end Member

namespace Compiled

variable {declarations : Declarations} {request : Request} {naming : Naming} {encoder : Encoder}
  {entry : TypeEntry} {member : Member} {type : ValueType} {a b v w : Option Value}

/-- A run can reach the type of this name. -/
def LiveAt (naming : Naming) (encoder : Encoder) (source : String) : Prop :=
  ∃ entry ∈ naming.graph.entriesOf (naming.graph.postOrder naming.graph.roots),
    entry.name = source ∧ Live encoder entry

/-- Values of a type that a run can reach, of which one is a rewriting of the other. -/
def Reworded (declarations : Declarations) (naming : Naming) (encoder : Encoder) (source : String)
    (a b : Option Value) : Prop :=
  LiveAt naming encoder source ∧ Restated declarations naming.index (.record source) a b

/-! ## Copies -/

/-- A member without a nested type in the graph names none. -/
theorem nested?_eq_none (h : Compiled declarations request naming encoder.program)
    (hGraph : entry ∈ naming.graph.entries) (hMember : member ∈ entry.members)
    (hNone : naming.graph.nested? member = none) : member.nested? = none := by
  cases hName : member.nested? with
  | none => rfl
  | some name =>
      obtain ⟨_, _, hSome, _⟩ := h.nested?_eq_some hGraph hMember hName
      rw [hNone] at hSome
      cases hSome

/-- Where members are no aggregates, a copy reads single numbers. -/
theorem primitiveCopy_restated {same : String → Option Value → Option Value → Prop}
    (hType : member.valueType = ⟨none, member.arrayLength?.isSome⟩)
    (hRestated : Restated declarations naming.index member.valueType a b) :
    member.primitiveCopy.Reads same a b := by
  rw [hType] at hRestated
  unfold Member.primitiveCopy
  split
  · rename_i hPlain
    rw [hPlain] at hRestated
    exact hRestated.sameNumber
  · exact fun i => (hRestated.item i).sameNumber

/-- A copy reads what its member's type of value says, if the member is no variable-length
array and what the copy calls can be reached. -/
theorem copy_restated (h : Compiled declarations request naming encoder.program)
    (hGraph : entry ∈ naming.graph.entries) (hMember : member ∈ entry.members) {copy : Copy}
    (hCopy : naming.copy entry.toOutline member = .ok copy)
    (hLength : member.typeOverride? = none → member.lengthField? = none)
    (hLive : ∀ source, copy.callee? = some source → LiveAt naming encoder source)
    (hRestated : Restated declarations naming.index member.valueType a b) :
    copy.Reads (Reworded declarations naming encoder) a b := by
  rcases Naming.copy_eq_ok hCopy with
    ⟨hNumbers, rfl⟩ | ⟨nested, function, hOverride, hNested, _, ⟨hPlain, rfl⟩ | ⟨length, _, _, rfl⟩⟩
  · refine primitiveCopy_restated ?_ hRestated
    by_cases hOverride : member.typeOverride? = none
    · have hNone := hNumbers.resolve_left (not_not_intro hOverride)
      rw [Member.valueType_of_plain hOverride, h.nested?_eq_none hGraph hMember hNone,
        hLength hOverride, Option.isSome_none, Bool.or_false]
    · exact Member.valueType_of_override hOverride
  · rw [Member.valueType_of_plain hOverride, (TypeGraph.nested?_eq_some hNested).2,
      hLength hOverride, hPlain] at hRestated
    exact ⟨hLive nested.name rfl, hRestated⟩
  · rw [Member.valueType_of_plain hOverride, (TypeGraph.nested?_eq_some hNested).2] at hRestated
    exact fun i => ⟨hLive nested.name rfl, hRestated.item i⟩

/-- A run can reach what a step of a live type calls. -/
theorem liveAt_callee (h : Compiled declarations request naming encoder.program)
    (hEntry : entry ∈ naming.graph.entriesOf (naming.graph.postOrder naming.graph.roots))
    (hLive : Live encoder entry) (hMember : member ∈ entry.members) {step : Step}
    (hStep : naming.step entry.toOutline member = .ok step) {copy : Copy}
    (hCopy : copy ∈ step.copies) {source : String} (hSource : copy.callee? = some source) :
    LiveAt naming encoder source := by
  obtain ⟨lead, tail, hOrder⟩ := List.append_of_mem hEntry
  obtain ⟨callee, hLead, hName, _, _, hCallee⟩ :=
    h.callee_of_step hOrder hLive hMember hStep hCopy hSource
  exact ⟨callee, hOrder ▸ List.mem_append_left _ hLead, hName, hCallee⟩

/-! ## Members -/

section Member

variable (h : Compiled declarations request naming encoder.program)
  (hFields : encoder.program.DistinctFields declarations)
  (hSiblings : encoder.program.ScalarSiblings declarations naming.index)
  (hEntry : entry ∈ naming.graph.entriesOf (naming.graph.postOrder naming.graph.roots))
  (hMember : member ∈ entry.members)

include h hFields hEntry hMember

/-- A member of a type is the only one of its name. -/
theorem only_member {other : Member}
    (hOther : declarations.MemberAt naming.index entry.name member.name other) :
    other = member := by
  obtain ⟨type, hType, hMade⟩ := h.exists_type hEntry
  obtain ⟨declaration, hGet, hMembers⟩ := h.declared_of_packedType hEntry hMade
  rw [← (Naming.packedType_eq_ok hMade).1] at hOther
  obtain ⟨hMem, hName⟩ := hOther.of_get? hGet
  have hNames : ((declaration.members naming.index type.source).map fun member : Member =>
      member.name).Nodup := by
    rw [Declaration.members, List.map_map]
    exact hFields type hType declaration hGet
  exact List.inj_on_of_nodup_map hNames hMem (hMembers ▸ hMember) hName

/-- What holds of a value and its rewriting holds of their members. -/
theorem member_restated (hType : type.aggregate = some entry.name)
    (hRestated : Restated declarations naming.index type v w) :
    Restated declarations naming.index member.valueType (fieldOf v member.name)
      (fieldOf w member.name) := by
  have hGraph := TypeGraph.entriesOf_subset hEntry
  exact hRestated.field hType (h.memberAt hGraph hMember) fun other hOther =>
    h.only_member hFields hEntry hMember hOther

include hSiblings

/-- A length or a discriminator is the same number in a value and its rewriting. -/
theorem sibling_restated {directive : Directive}
    (hDirective : directive ∈ member.directives) {sibling : String}
    (hSibling : directive.sibling? = some sibling)
    (hRestated : Restated declarations naming.index (.record entry.name) v w) :
    SameNumber (fieldOf v sibling) (fieldOf w sibling) := by
  obtain ⟨type, hType, hMade⟩ := h.exists_type hEntry
  obtain ⟨declaration, hGet, hMembers⟩ := h.declared_of_packedType hEntry hMade
  obtain ⟨scalar, hScalar, rfl, hNumber⟩ := hSiblings type hType declaration hGet member
    (hMembers ▸ hMember) directive hDirective sibling hSibling
  have hField := h.member_restated hFields hEntry (hMembers ▸ hScalar) rfl hRestated
  rw [hNumber] at hField
  exact hField.sameNumber

/-! ## Steps -/

/-- The step of a variable-length array reads a length, and items. -/
theorem varLenStep_restated {lengthField : String}
    (hDecisive : member.decisive? = some (.varLenArray lengthField))
    (hOverride : member.typeOverride? = none) {step : Step}
    (hStep : naming.varLenStep entry.toOutline member lengthField = .ok step)
    (hLive : ∀ copy ∈ step.copies, ∀ source, copy.callee? = some source →
      LiveAt naming encoder source)
    (hRestated : Restated declarations naming.index (.record entry.name) v w) :
    step.Reads (Reworded declarations naming encoder) encoder v w := by
  have hGraph := TypeGraph.entriesOf_subset hEntry
  obtain ⟨element, copy, _, rfl, hCopy⟩ := Naming.varLenStep_eq_ok hStep
  constructor
  · exact h.sibling_restated hFields hSiblings hEntry hMember (List.mem_of_find?_eq_some hDecisive)
      rfl hRestated
  · intro i
    have hItem := (h.member_restated hFields hEntry hMember rfl hRestated).item i
    rw [Member.valueType_of_plain hOverride] at hItem
    obtain ⟨hNone, rfl⟩ | ⟨nested, function, hNested, _, _, rfl⟩ := hCopy
    · rw [h.nested?_eq_none hGraph hMember hNone] at hItem
      exact hItem.sameNumber
    · rw [(TypeGraph.nested?_eq_some hNested).2] at hItem
      exact ⟨hLive _ List.mem_cons_self nested.name rfl, hItem⟩

/-- The step of a union reads a discriminator, and a member of the union. -/
theorem unionStep_restated (hEntryLive : Live encoder entry) {discriminator : String}
    {mapping : List (Literal × String)}
    (hDecisive : member.decisive? = some (.unionVariant discriminator mapping))
    (hOverride : member.typeOverride? = none) {step : Step}
    (hStep : naming.unionStep entry.toOutline member discriminator mapping = .ok step)
    (hLive : ∀ copy ∈ step.copies, ∀ source, copy.callee? = some source →
      LiveAt naming encoder source)
    (hRestated : Restated declarations naming.index (.record entry.name) v w) :
    step.Reads (Reworded declarations naming encoder) encoder v w := by
  have hEnum := h.sound.enumeration_postOrder naming.graph.roots
  obtain ⟨union, record, arms, hNested, hKind, _, _, hArms, rfl⟩ := Naming.unionStep_eq_ok hStep
  obtain ⟨hGraph, hName⟩ := TypeGraph.nested?_eq_some hNested
  have hUnion := hEnum.nested_mem hEntry hGraph (List.mem_filterMap.2 ⟨member, hMember, hName⟩)
  -- No member of the union is a variable-length array: the union of a live type is fixed.
  obtain ⟨parts, hParts, _⟩ := h.exists_parts (hEnum.mem_entries entry hEntry) hEntryLive
  obtain ⟨part, _, hPart⟩ := exists_right_of_mem hParts hMember
  have hFixed := union_fixed hPart hOverride hNested hKind
  constructor
  · exact h.sibling_restated hFields hSiblings hEntry hMember (List.mem_of_find?_eq_some hDecisive)
      rfl hRestated
  · intro selector arm _ hArm
    have hArmMem := Encoder.mem_of_selectArm hArm
    obtain ⟨pair, _, hMade⟩ := exists_left_of_mem hArms hArmMem
    obtain ⟨variant, copy, hVariant, hCopy, rfl⟩ := Naming.unionArm_eq_ok hMade
    have hVariantMem := List.mem_of_find?_eq_some hVariant
    have hVariantName := List.find?_some hVariant
    have hType : member.valueType.aggregate = some union.name := by
      rw [Member.valueType_of_plain hOverride]
      exact hName
    have hInner := h.member_restated hFields hUnion hVariantMem hType
      (h.member_restated hFields hEntry hMember rfl hRestated)
    rw [eq_of_beq hVariantName] at hInner
    exact h.copy_restated hGraph hVariantMem hCopy
      (fun _ => (h.fixed_members hGraph hFixed hVariantMem).1)
      (hLive _ (List.mem_map_of_mem hArmMem)) hInner

/-- The step of a member reads of a value what it reads of a rewriting. -/
theorem step_restated (hLive : Live encoder entry) {step : Step}
    (hStep : naming.step entry.toOutline member = .ok step)
    (hRestated : Restated declarations naming.index (.record entry.name) v w) :
    step.Reads (Reworded declarations naming encoder) encoder v w := by
  have hGraph := TypeGraph.entriesOf_subset hEntry
  have hCallees : ∀ copy ∈ step.copies, ∀ source, copy.callee? = some source →
      LiveAt naming encoder source := fun copy hCopy source hSource =>
    h.liveAt_callee hEntry hLive hMember hStep hCopy hSource
  rcases Naming.step_eq_ok hStep with
    ⟨hDecisive, copy, hCopy, rfl⟩ | ⟨value, _, rfl⟩ |
      ⟨lengthField, hDecisive, hOverride, hVarLen⟩ |
      ⟨discriminator, mapping, hDecisive, hOverride, hUnion⟩
  · have hPlain : member.typeOverride? = none → member.lengthField? = none := fun hOverride =>
      not_not.1 fun hLength => Member.decisive?_ne_none hOverride hLength hDecisive
    exact h.copy_restated hGraph hMember hCopy hPlain (hCallees copy List.mem_cons_self)
      (h.member_restated hFields hEntry hMember rfl hRestated)
  · rcases Naming.fixedStep_cases member value with hFixed | hFixed <;> rw [hFixed] <;> trivial
  · exact h.varLenStep_restated hFields hSiblings hEntry hMember hDecisive hOverride hVarLen
      hCallees hRestated
  · exact h.unionStep_restated hFields hSiblings hEntry hMember hLive hDecisive hOverride hUnion
      hCallees hRestated

/-! ## Terms -/

/-- A term of a size function reads of a value what it reads of a rewriting. -/
theorem sizeTerm?_restated {term : SizeTerm}
    (hTerm : naming.sizeTerm? entry.toOutline member = .ok (some term))
    (hCallee : ∀ source, Naming.callee? term = some source →
      (encoder.program.sizeFunction? source).isSome)
    (hRestated : Restated declarations naming.index (.record entry.name) v w) :
    term.Reads (Reworded declarations naming encoder) v w := by
  rcases Naming.sizeTerm?_eq_ok hTerm with
    ⟨_, hNone⟩ | ⟨lengthField, element, _, hLength, _, _, hSome⟩ |
      ⟨nested, target, function, hOverride, hLength, hNested, _, _, hPlain, hSome⟩
  · cases hNone
  · cases hSome
    exact h.sibling_restated hFields hSiblings hEntry hMember (Member.varLenArray_mem hLength) rfl
      hRestated
  · cases hSome
    obtain ⟨hGraph, hName⟩ := TypeGraph.nested?_eq_some hNested
    have hMem := (h.sound.enumeration_postOrder naming.graph.roots).nested_mem hEntry hGraph
      (List.mem_filterMap.2 ⟨member, hMember, hName⟩)
    have hField := h.member_restated hFields hEntry hMember rfl hRestated
    rw [Member.valueType_of_plain hOverride, hName, hLength, hPlain] at hField
    exact ⟨⟨nested, hMem, rfl, fun _ => hCallee nested.name rfl⟩, hField⟩

end Member

/-! ## Functions -/

/-- **Blindness**: no function of a compiled program tells a value from its rewriting. -/
theorem blind_to_wording (h : Compiled declarations request naming encoder.program)
    (hFields : encoder.program.DistinctFields declarations)
    (hSiblings : encoder.program.ScalarSiblings declarations naming.index) :
    encoder.Blind (Reworded declarations naming encoder) where
  isRecord := fun _ _ _ ⟨_, hRestated⟩ => hRestated.isRecord_eq
  steps := by
    rintro function hFunction v w ⟨⟨entry, hEntry, hName, hLive⟩, hRestated⟩ step hStep
    obtain ⟨same, hSame, hSource, _, member, hMember, hLowered⟩ :=
      h.exists_stepped_member hFunction hStep
    have hGraph := TypeGraph.entriesOf_subset hEntry
    obtain rfl := h.sound.eq_of_name_eq hGraph hSame (hName.trans hSource)
    exact h.step_restated hFields hSiblings hEntry hMember hLive hLowered (hName ▸ hRestated)
  terms := by
    rintro sizes hSizes v w ⟨⟨entry, hEntry, hName, _⟩, hRestated⟩ term hTerm
    have hTerms := h.sizeTerms_of_source (TypeGraph.entriesOf_subset hEntry) hSizes hName.symm
    obtain ⟨member, hMember, hAdds⟩ := Naming.exists_counted_member hTerms hTerm
    refine h.sizeTerm?_restated hFields hSiblings hEntry hMember hAdds (fun source hSource => ?_)
      (hName ▸ hRestated)
    exact h.sizeFunction?_of_callee hSizes (List.mem_filterMap.2 ⟨term, hTerm, hSource⟩)

/-- A run from an entry point begins at a live type. -/
theorem liveAt_root (h : Compiled declarations request naming encoder.program) {root : String}
    {point : EntryPoint} (hPoint : encoder.program.entryPoint? root = some point) :
    LiveAt naming encoder root := by
  obtain ⟨entry, hRoot, hMade, _, hEntry⟩ := h.root_entry (List.mem_of_find?_eq_some hPoint)
  have hSource := List.find?_some hPoint
  refine ⟨entry, hEntry, ?_, h.sizeFunction?_of_root hRoot⟩
  rw [← (Naming.entryPoint_eq_ok hMade).1, eq_of_beq hSource]

end Compiled

/-! ## Results -/

/-- What is no root of the program is refused, whatever the value. -/
theorem Encoder.alike_of_unknown_root {encoder : Encoder} {root : String}
    (hUnknown : encoder.program.entryPoint? root = none) (v w : Value) :
    encoder.encodedSize root v = encoder.encodedSize root w ∧
      encoder.encode root v = encoder.encode root w ∧
      ∀ buffer, encoder.encodeInto root v buffer = encoder.encodeInto root w buffer := by
  have hPoint : encoder.entryPoint root = .error (.error (.unknownRoot root)) := by
    rw [Encoder.entryPoint, hUnknown]
  refine ⟨?_, ?_, fun buffer => ?_⟩
  · rw [Encoder.encodedSize, Encoder.encodedSize, hPoint]
    rfl
  · rw [Encoder.encode, Encoder.encode, Encoder.encodedSize, Encoder.encodedSize, hPoint]
    rfl
  · rw [Encoder.encodeInto, Encoder.encodeInto, Encoder.prepare, hPoint]
    rfl

/-- **What counts is what a value says**: for every program that compiles, whose types have
distinct field names and whose length fields and discriminators are single numbers, values that
say the same have the same encoded size and the same encoding, and leave every buffer the same.
That holds for every table of primitive types, constants and limits. -/
theorem wording_unread {declarations : Declarations} {request : Request} {index : DirectiveIndex}
    {settings : Settings} {program : Program} {primitives : Primitives} {encoder : Encoder}
    (hCompile : compile declarations index settings request = .ok program)
    (hFields : program.DistinctFields declarations)
    (hSiblings : program.ScalarSiblings declarations index)
    (hEncoder : encoder.IsFor program primitives) {root : String} {v w : Value}
    (hSame : SaysSame declarations index root v w) :
    encoder.encodedSize root v = encoder.encodedSize root w ∧
      encoder.encode root v = encoder.encode root w ∧
      ∀ buffer, encoder.encodeInto root v buffer = encoder.encodeInto root w buffer := by
  obtain ⟨rfl, _⟩ := hEncoder.layouts
  obtain ⟨naming, rfl, hCompiled⟩ := compiled_of_compile hCompile
  cases hPoint : encoder.program.entryPoint? root with
  | none => exact Encoder.alike_of_unknown_root hPoint v w
  | some point =>
      have hBlind := hCompiled.blind_to_wording hFields hSiblings
      induction hSame with
      | rel v w hRestates =>
          exact hBlind.encodes_alike hCompiled.calleeFirst
            ⟨hCompiled.liveAt_root hPoint, .present hRestates⟩
      | refl v => exact ⟨rfl, rfl, fun _ => rfl⟩
      | symm v w _ ih =>
          obtain ⟨hSize, hEncode, hInto⟩ := ih
          exact ⟨hSize.symm, hEncode.symm, fun buffer => (hInto buffer).symm⟩
      | trans u v w _ _ ih ih' =>
          obtain ⟨hSize, hEncode, hInto⟩ := ih
          obtain ⟨hSize', hEncode', hInto'⟩ := ih'
          exact ⟨hSize.trans hSize', hEncode.trans hEncode',
            fun buffer => (hInto buffer).trans (hInto' buffer)⟩

namespace Sample

theorem scalarSiblings : program.ScalarSiblings declarations index := by
  unfold Program.ScalarSiblings
  decide +kernel

def terseFields : List (String × Value) :=
  [("kind", .int 1), ("count", .int 2), ("items", .array [.record [("id", .int 3)]])]

/-- A batch of two items, of which the second is all zeros. -/
def terse : Value := .record terseFields

/-- The same batch, with its zeros spelled out, and with a field that batches do not have. -/
def wordy : Value :=
  .record [("items", .array [.record [("id", .int 3)], .record []]), ("note", .int 5),
    ("body", .record []), ("count", .int 2), ("kind", .int 1)]

def itemsMember : Member :=
  ⟨"items", ⟨"const struct chreTestItem", .pointer⟩, [.varLenArray "count"]⟩

theorem wordy_saysSame_terse : SaysSame declarations index "chreTestBatch" wordy terse := by
  -- The last item is dropped, then the note and the body, and then the order is changed.
  have hItems : itemsMember.valueType = ⟨some "chreTestItem", true⟩ := by decide +kernel
  have hLast : Restates declarations index itemsMember.valueType
      (.array [.record [("id", .int 3)], .record []]) (.array [.record [("id", .int 3)]]) := by
    rw [hItems]
    exact @Restates.zeroItem _ _ ⟨some "chreTestItem", true⟩ [.record [("id", .int 3)]]
  have hShort := @Restates.member declarations index (.record "chreTestBatch") _ _ itemsMember []
    [("note", .int 5), ("body", .record []), ("count", .int 2), ("kind", .int 1)] _ _ rfl
    ⟨rfl, batch, batch_declared, by decide +kernel⟩ hLast
  have hNote := @Restates.undeclared declarations index (.record "chreTestBatch")
    [("items", .array [.record [("id", .int 3)]])]
    [("body", .record []), ("count", .int 2), ("kind", .int 1)] "note" (.int 5) (by
      rintro source member hSource hAt
      cases hSource
      obtain ⟨hMem, hName⟩ := hAt.of_get? batch_declared
      exact (by decide +kernel : ∀ other ∈ batch.members index "chreTestBatch",
        other.name ≠ "note") member hMem hName)
  have hBody : bodyMember.valueType = .record "chreTestVariant" := by decide +kernel
  have hZero := @Restates.zeroMember declarations index (.record "chreTestBatch") _ _ bodyMember
    [("items", .array [.record [("id", .int 3)]])] [("count", .int 2), ("kind", .int 1)] rfl
    ⟨rfl, batch, batch_declared, by decide +kernel⟩ (by decide +kernel) (by decide +kernel)
  rw [hBody] at hZero
  have hOrder : Restates declarations index (.record "chreTestBatch")
      (.record terseFields.reverse) terse :=
    .reordered (List.reverse_perm terseFields) (by decide +kernel)
  exact .trans _ _ _ (.rel _ _ hShort) (.trans _ _ _ (.rel _ _ hNote)
    (.trans _ _ _ (.rel _ _ hZero) (.rel _ _ hOrder)))

theorem wordy_encodes_as_terse :
    SaysSame declarations index "chreTestBatch" wordy terse ∧
      encoder.encodedSize "chreTestBatch" wordy = encoder.encodedSize "chreTestBatch" terse ∧
      encoder.encode "chreTestBatch" wordy = encoder.encode "chreTestBatch" terse ∧
      ∀ buffer, encoder.encodeInto "chreTestBatch" wordy buffer =
        encoder.encodeInto "chreTestBatch" terse buffer :=
  ⟨wordy_saysSame_terse,
    wording_unread compiles distinctFields scalarSiblings isFor wordy_saysSame_terse⟩

end Sample

end WireSchema
