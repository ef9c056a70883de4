import WireSchema.Proofs.AcceptedInputs
import WireSchema.Proofs.MemberLowering

/-!
# Inputs that agree on a type

Two inputs can have little in common and still say the same of what one type contains: the
same declarations, and on every field the same directives of those kinds that are about the
encoded bytes.  `AgreeOn` says that they do.

What two inputs agree on appears alike in their type graphs, wherever else it appears there:
the members correspond, and the variable-length mark is the same.  `TypeGraph.Matches` says
that of two graphs.

## Main results

* `Member.Matches.decisive?_eq`, `Member.Matches.typeOverride?_eq`: what the views of a member
  go by.
* `AgreeOn.symm`: the closure of the type in one input is that in the other.
* `AgreeOn.graph_matches`: type graphs of agreeing inputs match.
-/

namespace WireSchema

/-- Whether a directive says something of the encoded bytes.  The others are about names. -/
def Directive.isOnWire : Directive → Bool
  | .overrideType _ => true
  | .fixedValue _ => true
  | .varLenArray _ => true
  | .unionVariant .. => true
  | .renameType _ => false
  | .enumeration _ => false

/-! ## Members -/

/-- The members are the same as far as the encoded bytes go, and name an included type if any. -/
structure Member.Matches (included : String → Prop) (member other : Member) : Prop where
  name : member.name = other.name
  type : member.type = other.type
  directives : member.directives.filter Directive.isOnWire =
    other.directives.filter Directive.isOnWire
  nested : ∀ name, member.nested? = some name → included name

/-- What a directive off the wire has nothing to say about is said by those on it. -/
theorem findSome?_filter_isOnWire {α : Type} {f : Directive → Option α}
    (h : ∀ directive, directive.isOnWire = false → f directive = none)
    (directives : List Directive) :
    (directives.filter Directive.isOnWire).findSome? f = directives.findSome? f := by
  induction directives with
  | nil => rfl
  | cons directive rest ih =>
      by_cases hWire : directive.isOnWire = true
      · rw [List.filter_cons_of_pos hWire, List.findSome?_cons, List.findSome?_cons, ih]
      · have hNone := h directive (by simpa using hWire)
        rw [List.filter_cons_of_neg hWire, List.findSome?_cons, hNone, ih]

theorem Member.isOnWire_of_decides {member : Member} {directive : Directive}
    (h : member.decides directive = true) : directive.isOnWire = true := by
  cases directive <;> first | rfl | cases h

namespace Member.Matches

variable {included : String → Prop} {member other : Member}

theorem nested?_eq (h : member.Matches included other) : member.nested? = other.nested? := by
  rw [Member.nested?, Member.nested?, h.type]

theorem arrayLength?_eq (h : member.Matches included other) :
    member.arrayLength? = other.arrayLength? := by
  rw [Member.arrayLength?, Member.arrayLength?, h.type]

theorem findSome?_eq (h : member.Matches included other) {α : Type} {f : Directive → Option α}
    (hWire : ∀ directive, directive.isOnWire = false → f directive = none) :
    member.directives.findSome? f = other.directives.findSome? f := by
  rw [← findSome?_filter_isOnWire hWire, h.directives, findSome?_filter_isOnWire hWire]

theorem typeOverride?_eq (h : member.Matches included other) :
    member.typeOverride? = other.typeOverride? := by
  apply h.findSome?_eq
  intro directive hWire
  cases directive <;> first | rfl | cases hWire

theorem lengthField?_eq (h : member.Matches included other) :
    member.lengthField? = other.lengthField? := by
  apply h.findSome?_eq
  intro directive hWire
  cases directive <;> first | rfl | cases hWire

theorem decisive?_eq (h : member.Matches included other) :
    member.decisive? = other.decisive? := by
  have hDecides : member.decides = other.decides := by
    funext directive
    cases directive <;> simp only [Member.decides, h.typeOverride?_eq]
  have hWire : ∀ directive : Directive,
      decide (directive.isOnWire = true ∧ other.decides directive = true) =
        other.decides directive := by
    intro directive
    rw [Bool.eq_iff_iff, decide_eq_true_iff]
    exact and_iff_right_of_imp isOnWire_of_decides
  have hFind : ∀ directives : List Directive,
      (directives.filter Directive.isOnWire).find? other.decides =
        directives.find? other.decides := by
    intro directives
    rw [List.find?_filter]
    simp only [hWire]
  rw [Member.decisive?, Member.decisive?, hDecides, ← hFind, h.directives, hFind]

end Member.Matches

/-! ## Type graphs -/

/-- The types have the same members as far as the encoded bytes go, and the same mark. -/
structure TypeEntry.Matches (included : String → Prop) (entry other : TypeEntry) : Prop where
  name : entry.name = other.name
  mem : included entry.name
  kind : entry.kind = other.kind
  varLen : entry.varLen = other.varLen
  members : List.Forall₂ (Member.Matches included) entry.members other.members

theorem TypeEntry.Matches.isUnion_eq {included : String → Prop} {entry other : TypeEntry}
    (h : entry.Matches included other) : entry.isUnion = other.isUnion := by
  rw [Outline.isUnion, Outline.isUnion, h.kind]

/-- Members of one name of matching types match. -/
theorem TypeEntry.Matches.member? {included : String → Prop} {union same : TypeEntry}
    (h : union.Matches included same) (target : String) :
    (union.member? target = none ∧ same.member? target = none) ∨
      ∃ variant counterpart, union.member? target = some variant ∧
        same.member? target = some counterpart ∧ variant.Matches included counterpart := by
  have hMembers := h.members
  unfold Outline.member?
  generalize union.members = members at hMembers
  generalize same.members = others at hMembers
  induction hMembers with
  | nil => exact .inl ⟨rfl, rfl⟩
  | @cons member other members others hHead _ ih =>
      rw [List.find?_cons, List.find?_cons, hHead.name]
      split
      · exact .inr ⟨member, other, rfl, rfl, hHead⟩
      · exact ih

/-- Both graphs have the included types, and those match. -/
def TypeGraph.Matches (graph other : TypeGraph) (included : String → Prop) : Prop :=
  ∀ name, included name → ∃ entry counterpart, graph.find? name = some entry ∧
    other.find? name = some counterpart ∧ entry.Matches included counterpart

/-- Matching members have matching types nested in them, or none. -/
theorem TypeGraph.Matches.nested? {graph other : TypeGraph} {included : String → Prop}
    (h : graph.Matches other included) {member counterpart : Member}
    (hMember : member.Matches included counterpart) :
    (graph.nested? member = none ∧ other.nested? counterpart = none) ∨
      ∃ nested twin, graph.nested? member = some nested ∧ other.nested? counterpart = some twin ∧
        nested.Matches included twin := by
  unfold TypeGraph.nested?
  rw [← hMember.nested?_eq]
  cases hName : member.nested? with
  | none => exact .inl ⟨rfl, rfl⟩
  | some name =>
      obtain ⟨nested, twin, hNested, hTwin, hMatches⟩ := h name (hMember.nested name hName)
      exact .inr ⟨nested, twin, hNested, hTwin, hMatches⟩

/-- So they have matching variable-length types nested in them, or none. -/
theorem TypeGraph.Matches.nestedVarLen? {graph other : TypeGraph} {included : String → Prop}
    (h : graph.Matches other included) {member counterpart : Member}
    (hMember : member.Matches included counterpart) :
    ((graph.nested? member).filter TypeEntry.varLen = none ∧
        (other.nested? counterpart).filter TypeEntry.varLen = none) ∨
      ∃ nested twin, (graph.nested? member).filter TypeEntry.varLen = some nested ∧
        (other.nested? counterpart).filter TypeEntry.varLen = some twin ∧
        nested.Matches included twin := by
  rcases h.nested? hMember with ⟨hNone, hOther⟩ | ⟨nested, twin, hNested, hTwin, hMatches⟩
  · rw [hNone, hOther]
    exact .inl ⟨rfl, rfl⟩
  · rw [hNested, hTwin, Option.filter_some, Option.filter_some, ← hMatches.varLen]
    split
    · exact .inr ⟨nested, twin, rfl, rfl, hMatches⟩
    · exact .inl ⟨rfl, rfl⟩

/-! ## Agreement -/

/-- The inputs have the same declarations for what `root` contains, and the same directives
about the encoded bytes on every field. -/
structure AgreeOn (declarations : Declarations) (index : DirectiveIndex) (others : Declarations)
    (otherIndex : DirectiveIndex) (root : String) : Prop where
  declared : ∀ name, declarations.Contained [root] name →
    declarations.get? name = others.get? name
  annotated : ∀ owner declaration field, declarations.FieldIn [root] owner declaration field →
    (index.lookup owner field.name).filter Directive.isOnWire =
      (otherIndex.lookup owner field.name).filter Directive.isOnWire

namespace AgreeOn

variable {declarations others : Declarations} {index otherIndex : DirectiveIndex} {root : String}

/-- Both inputs have the same types under any type that the root contains. -/
theorem contained (h : AgreeOn declarations index others otherIndex root) {name inner : String}
    (hName : declarations.Contained [root] name) (hInner : declarations.Contained [name] inner) :
    others.Contained [name] inner := by
  induction hInner with
  | root hMem => exact .root hMem
  | nested hOwner hGet hField hNested ih =>
      rw [h.declared _ (hName.trans hOwner)] at hGet
      exact .nested ih hGet hField hNested

theorem contained_iff (h : AgreeOn declarations index others otherIndex root) (name : String) :
    declarations.Contained [root] name ↔ others.Contained [root] name := by
  have hRoot : declarations.Contained [root] root := .root (List.mem_singleton.2 rfl)
  constructor
  · exact h.contained hRoot
  · intro hName
    induction hName with
    | root hMem => exact .root hMem
    | nested _ hGet hField hNested ih =>
        rw [← h.declared _ ih] at hGet
        exact .nested ih hGet hField hNested

theorem symm (h : AgreeOn declarations index others otherIndex root) :
    AgreeOn others otherIndex declarations index root where
  declared name hName := (h.declared name ((h.contained_iff name).2 hName)).symm
  annotated owner declaration field hField := by
    have hOwner := (h.contained_iff owner).2 hField.contained
    have hGet := (h.declared owner hOwner).trans hField.declared
    exact (h.annotated owner declaration field ⟨hOwner, hGet, hField.mem⟩).symm

/-- A field of a contained type is the same member to both inputs. -/
theorem member_matches (h : AgreeOn declarations index others otherIndex root) {owner : String}
    {declaration : Declaration} {field : Field}
    (hField : declarations.FieldIn [root] owner declaration field) :
    (Member.annotated index owner field).Matches (declarations.Contained [root])
      (Member.annotated otherIndex owner field) where
  name := rfl
  type := rfl
  directives := h.annotated owner declaration field hField
  nested _ hNested := .nested hField.contained hField.declared hField.mem hNested

/-- A contained type that is variable-length to one input is so to the other. -/
theorem isVarLen (h : AgreeOn declarations index others otherIndex root) {name : String}
    (hName : declarations.Contained [root] name) (hVarLen : declarations.IsVarLen index name) :
    others.IsVarLen otherIndex name := by
  obtain ⟨inner, declaration, hInner, hGet, member, hMember, hArray⟩ := hVarLen
  obtain ⟨field, hField, rfl⟩ := List.mem_map.1 hMember
  have hContained := hName.trans hInner
  have hMatches := h.member_matches ⟨hContained, hGet, hField⟩
  rw [hMatches.lengthField?_eq] at hArray
  exact ⟨inner, declaration, h.contained hName hInner, h.declared inner hContained ▸ hGet, _,
    List.mem_map_of_mem hField, hArray⟩

/-- **Agreeing inputs** have type graphs that match on what the root contains. -/
theorem graph_matches (h : AgreeOn declarations index others otherIndex root)
    {roots otherRoots : List String} {graph other : TypeGraph}
    (hSound : graph.Sound declarations index roots)
    (hOther : other.Sound others otherIndex otherRoots)
    (hRoot : root ∈ roots) (hOtherRoot : root ∈ otherRoots) :
    graph.Matches other (declarations.Contained [root]) := by
  intro name hName
  have hOtherName := (h.contained_iff name).1 hName
  obtain ⟨entry, hEntry, hEntryName⟩ :=
    (hSound.mem_names_iff name).2 (Declarations.Contained.trans (.root hRoot) hName)
  obtain ⟨twin, hTwin, hTwinName⟩ :=
    (hOther.mem_names_iff name).2 (Declarations.Contained.trans (.root hOtherRoot) hOtherName)
  replace hEntry := TypeGraph.entriesOf_subset hEntry
  replace hTwin := TypeGraph.entriesOf_subset hTwin
  obtain ⟨declaration, hGet, hKind, hMembers⟩ := hSound.declared entry hEntry
  obtain ⟨same, hSame, hTwinKind, hTwinMembers⟩ := hOther.declared twin hTwin
  have hVarLen := hSound.varLen_iff_isVarLen hEntry
  have hTwinVarLen := hOther.varLen_iff_isVarLen hTwin
  refine ⟨entry, twin, hSound.find?_eq_some.2 ⟨hEntry, hEntryName⟩,
    hOther.find?_eq_some.2 ⟨hTwin, hTwinName⟩, ?_⟩
  rw [hEntryName] at hGet hMembers hVarLen
  rw [hTwinName] at hSame hTwinMembers hTwinVarLen
  obtain rfl : declaration = same := by
    rw [h.declared name hName, hSame] at hGet
    exact (Option.some.inj hGet).symm
  refine ⟨hEntryName.trans hTwinName.symm, hEntryName ▸ hName, hKind.trans hTwinKind.symm, ?_, ?_⟩
  · rw [Bool.eq_iff_iff, hVarLen, hTwinVarLen]
    exact ⟨h.isVarLen hName, h.symm.isVarLen hOtherName⟩
  · rw [hMembers, hTwinMembers, Declaration.members, Declaration.members,
      List.forall₂_map_left_iff, List.forall₂_map_right_iff, List.forall₂_same]
    intro field hField
    exact h.member_matches ⟨hName, hGet, hField⟩

end AgreeOn

end WireSchema
