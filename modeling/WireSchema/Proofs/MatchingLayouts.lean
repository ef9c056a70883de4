import WireSchema.Proofs.ClosedProgram
import WireSchema.Proofs.LaidOut

/-!
# Layouts of matching types

The layout of a packed type does not depend on what the type is called in generated code, nor
on the comments of its members.  It goes by the primitive types that the members have, and by
the layouts of the types that they refer to, under their source names.

So packed types of two programs have the same layout if they *match*: if their members are
placed alike and refer to types that match in turn.  What a type refers to stands before it,
which is what the induction is on.

## Main results

* `Layouts.typeLayout_eq`: matching types, over tables that agree on what they refer to.
* `Layouts.layouts_match`: the included types of two programs.
-/

namespace WireSchema

section Parts

variable (included : String → Prop)

/-- The values have the same primitive type, or the same included source type. -/
inductive Representation.Matches : Representation → Representation → Prop
  | primitive (spec : String) : Matches (.primitive spec) (.primitive spec)
  | record {record other : RecordRef} : record.source = other.source → included record.source →
      Matches (.record record) (.record other)

inductive Placement.Matches : Placement → Placement → Prop
  | value {representation other : Representation} : representation.Matches included other →
      Matches (.value representation) (.value other)
  | descriptor {element other : Representation} : element.Matches included other →
      Matches (.descriptor element) (.descriptor other)

structure PackedMember.Matches (member other : PackedMember) : Prop where
  name : member.name = other.name
  placement : member.placement.Matches included other.placement
  arrayLength : member.arrayLength = other.arrayLength

/-- The types are packed from the same source type, member by member alike. -/
structure PackedType.Matches (type other : PackedType) : Prop where
  source : type.source = other.source
  kind : type.kind = other.kind
  members : List.Forall₂ (PackedMember.Matches included) type.members other.members

end Parts

namespace Program

variable {program : Program}

/-- The place of the packed type of a source type. -/
def typeRank (program : Program) (source : String) : Nat :=
  (program.types.map PackedType.source).idxOf source

theorem CalleeFirst.typeRank_lt (h : program.CalleeFirst) {type : PackedType}
    (hType : type ∈ program.types) {member : PackedMember} (hMember : member ∈ type.members)
    {ref : RecordRef} (hRef : member.placement.representation = .record ref) :
    program.typeRank ref.source < program.typeRank type.source := by
  obtain ⟨before, after, hSplit⟩ := List.append_of_mem hType
  obtain ⟨other, hOther, hSource, _⟩ :=
    h.record_before before type after hSplit member hMember ref hRef
  have hNames := congrArg (List.map PackedType.source) hSplit
  rw [List.map_append, List.map_cons] at hNames
  rw [← hSource]
  exact idxOf_lt_of_before h.nodup_types hNames (List.mem_map_of_mem hOther)

end Program

namespace Layouts

variable {layouts others : Layouts} {primitives : Primitives} {included : String → Prop}

/-- Two tables have the same layout for what the representation refers to. -/
def AgreeAt (layouts others : Layouts) (included : String → Prop)
    (representation : Representation) : Prop :=
  ∀ ref, representation = .record ref → included ref.source →
    layouts.get? ref.source = others.get? ref.source

theorem elementOf_eq {representation other : Representation}
    (h : representation.Matches included other)
    (hAgree : AgreeAt layouts others included representation) (owner member : String) :
    layouts.elementOf primitives owner member representation =
      others.elementOf primitives owner member other := by
  cases h with
  | primitive spec => rfl
  | record hSource hIncluded =>
      unfold elementOf
      dsimp only
      rw [hAgree _ rfl hIncluded, hSource]

theorem fieldAt_eq {member other : PackedMember} (h : member.Matches included other)
    (hAgree : AgreeAt layouts others included member.placement.representation)
    (owner : String) (offset : Nat) :
    layouts.fieldAt primitives owner member offset =
      others.fieldAt primitives owner other offset := by
  have hPlacement := h.placement
  unfold fieldAt
  rw [h.name, h.arrayLength]
  generalize member.placement = placement at hPlacement hAgree
  generalize other.placement = otherPlacement at hPlacement
  cases hPlacement with
  | value hMatches =>
      dsimp only
      rw [elementOf_eq hMatches hAgree]
  | descriptor hMatches =>
      dsimp only
      rw [elementOf_eq hMatches hAgree]

theorem fieldsFrom_eq {members twins : List PackedMember}
    (h : List.Forall₂ (PackedMember.Matches included) members twins)
    (hAgree : ∀ member ∈ members, AgreeAt layouts others included member.placement.representation)
    (kind : AggregateKind) (owner : String) (size : Nat) :
    layouts.fieldsFrom primitives kind owner size members =
      others.fieldsFrom primitives kind owner size twins := by
  induction h generalizing size with
  | nil => rfl
  | cons hHead _ ih =>
      have hRest := ih fun member hMember => hAgree member (List.mem_cons_of_mem _ hMember)
      rw [fieldsFrom, fieldsFrom, fieldAt_eq hHead (hAgree _ List.mem_cons_self), hHead.name]
      refine bind_congr fun field => ?_
      rw [hRest]

theorem typeLayout_eq {type twin : PackedType} (h : type.Matches included twin)
    (hAgree : ∀ member ∈ type.members,
      AgreeAt layouts others included member.placement.representation) :
    layouts.typeLayout primitives type = others.typeLayout primitives twin := by
  unfold typeLayout
  rw [h.source, h.kind, fieldsFrom_eq h.members hAgree]

/-- **Matching types** of two programs have the same layout. -/
theorem layouts_match {program other : Program} (hFirst : program.CalleeFirst)
    (hOtherFirst : other.CalleeFirst) (hLayouts : ofProgram primitives program = .ok layouts)
    (hOthers : ofProgram primitives other = .ok others)
    (hTypes : ∀ name, included name → ∃ type ∈ program.types, ∃ twin ∈ other.types,
      type.source = name ∧ type.Matches included twin) (name : String) (hName : included name) :
    ∃ layout, layouts.get? name = some layout ∧ others.get? name = some layout := by
  induction hRank : program.typeRank name using Nat.strong_induction_on generalizing name with
  | _ rank ih =>
      obtain ⟨type, hType, twin, hTwin, rfl, hMatches⟩ := hTypes name hName
      obtain ⟨layout, hLayout, hMade⟩ := ofProgram_ok hLayouts hFirst.nodup_types type hType
      obtain ⟨same, hSame, hTwinMade⟩ := ofProgram_ok hOthers hOtherFirst.nodup_types twin hTwin
      have hAgree : ∀ member ∈ type.members,
          AgreeAt layouts others included member.placement.representation := by
        intro member hMember ref hRef hIncluded
        have hLower := hFirst.typeRank_lt hType hMember hRef
        obtain ⟨nested, hNested, hOther⟩ := ih _ (hRank ▸ hLower) ref.source hIncluded rfl
        rw [hNested, hOther]
      rw [typeLayout_eq hMatches hAgree, hTwinMade] at hMade
      obtain rfl := Except.ok.inj hMade
      exact ⟨same, hLayout, hMatches.source ▸ hSame⟩

end Layouts

end WireSchema
