import WireSchema.Packing.Layout
import WireSchema.Proofs.NameLookup
import WireSchema.Proofs.Outcome

/-!
# What a table of layouts says

The table grows type by type, and a layout is computed from what is there by then.
Since no type is listed twice, nothing that a layout was computed from changes later: the
final table gives every type the layout that it would compute from the final table.

## Main results

* `Layouts.ofProgram_ok`: the final table reproduces all its layouts.
* `Layouts.fieldAt_value`, `Layouts.fieldAt_descriptor`: the place of a member.
* `Layouts.union_fields`: where the members of a union are.
-/

namespace WireSchema.Layouts

variable {layouts final : Layouts} {primitives : Primitives}

/-- A table has what another has. -/
def Extends (final layouts : Layouts) : Prop :=
  ∀ source layout, layouts.get? source = some layout → final.get? source = some layout

theorem elementOf_of_extends (h : final.Extends layouts) {owner member : String}
    {representation : Representation} {element : Nat × Option ScalarClass}
    (hElement : layouts.elementOf primitives owner member representation = .ok element) :
    final.elementOf primitives owner member representation = .ok element := by
  cases representation with
  | primitive spec => exact hElement
  | record ref =>
      unfold elementOf at hElement ⊢
      dsimp only at hElement ⊢
      split at hElement
      · rename_i layout hLayout
        rw [h ref.source layout hLayout]
        exact hElement
      · cases hElement

/-! ## Single members -/

theorem fieldAt_value {owner : String} {member : PackedMember} {representation : Representation}
    (hPlacement : member.placement = .value representation) {offset : Nat} {field : FieldLayout} :
    layouts.fieldAt primitives owner member offset = .ok field ↔
      ∃ element, layouts.elementOf primitives owner member.name representation = .ok element ∧
        field = ⟨offset, element.1 * member.arrayLength.getD 1, element.1,
          member.arrayLength.getD 1, element.2⟩ := by
  unfold fieldAt
  rw [hPlacement]
  dsimp only
  rw [bind_eq_ok]
  refine exists_congr fun element => and_congr_right fun _ => ?_
  rw [pure_eq_ok, eq_comm]

theorem fieldAt_descriptor {owner : String} {member : PackedMember}
    {representation : Representation} (hPlacement : member.placement = .descriptor representation)
    {offset : Nat} {field : FieldLayout} :
    layouts.fieldAt primitives owner member offset = .ok field ↔
      ∃ element, layouts.elementOf primitives owner member.name representation = .ok element ∧
        field = ⟨offset, descriptorSize * member.arrayLength.getD 1, element.1,
          member.arrayLength.getD 1, element.2⟩ := by
  unfold fieldAt
  rw [hPlacement]
  dsimp only
  rw [bind_eq_ok]
  refine exists_congr fun element => and_congr_right fun _ => ?_
  rw [pure_eq_ok, eq_comm]

theorem fieldAt_of_extends (h : final.Extends layouts) {owner : String} {member : PackedMember}
    {offset : Nat} {field : FieldLayout}
    (hField : layouts.fieldAt primitives owner member offset = .ok field) :
    final.fieldAt primitives owner member offset = .ok field := by
  cases hPlacement : member.placement with
  | value representation =>
      obtain ⟨element, hElement, rfl⟩ := (fieldAt_value hPlacement).1 hField
      exact (fieldAt_value hPlacement).2 ⟨element, elementOf_of_extends h hElement, rfl⟩
  | descriptor representation =>
      obtain ⟨element, hElement, rfl⟩ := (fieldAt_descriptor hPlacement).1 hField
      exact (fieldAt_descriptor hPlacement).2 ⟨element, elementOf_of_extends h hElement, rfl⟩

theorem offset_of_fieldAt {owner : String} {member : PackedMember} {offset : Nat}
    {field : FieldLayout} (h : layouts.fieldAt primitives owner member offset = .ok field) :
    field.offset = offset := by
  cases hPlacement : member.placement with
  | value representation =>
      obtain ⟨_, _, rfl⟩ := (fieldAt_value hPlacement).1 h
      rfl
  | descriptor representation =>
      obtain ⟨_, _, rfl⟩ := (fieldAt_descriptor hPlacement).1 h
      rfl

/-! ## All members of a type -/

theorem fieldsFrom_cons {kind : AggregateKind} {owner : String} {size : Nat}
    {member : PackedMember} {rest : List PackedMember}
    {result : List (String × FieldLayout) × Nat} :
    layouts.fieldsFrom primitives kind owner size (member :: rest) = .ok result ↔
      ∃ field tail total,
        layouts.fieldAt primitives owner member (if kind.isUnion then 0 else size) = .ok field ∧
        layouts.fieldsFrom primitives kind owner (max size (field.offset + field.size)) rest =
          .ok (tail, total) ∧
        result = ((member.name, field) :: tail, total) := by
  rw [fieldsFrom]
  constructor
  · intro h
    obtain ⟨field, hField, h⟩ := bind_eq_ok.1 h
    obtain ⟨⟨tail, total⟩, hTail, h⟩ := bind_eq_ok.1 h
    exact ⟨field, tail, total, hField, hTail, (pure_eq_ok.1 h).symm⟩
  · rintro ⟨field, tail, total, hField, hTail, rfl⟩
    exact bind_eq_ok.2 ⟨field, hField, bind_eq_ok.2 ⟨(tail, total), hTail, rfl⟩⟩

theorem fieldsFrom_of_extends (h : final.Extends layouts) {kind : AggregateKind} {owner : String}
    {members : List PackedMember} {size : Nat} {result : List (String × FieldLayout) × Nat}
    (hFields : layouts.fieldsFrom primitives kind owner size members = .ok result) :
    final.fieldsFrom primitives kind owner size members = .ok result := by
  induction members generalizing size result with
  | nil => exact hFields
  | cons member rest ih =>
      obtain ⟨field, tail, total, hField, hTail, rfl⟩ := fieldsFrom_cons.1 hFields
      exact fieldsFrom_cons.2 ⟨field, tail, total, fieldAt_of_extends h hField, ih hTail, rfl⟩

theorem map_fst_fieldsFrom {kind : AggregateKind} {owner : String} {members : List PackedMember}
    {size : Nat} {result : List (String × FieldLayout) × Nat}
    (h : layouts.fieldsFrom primitives kind owner size members = .ok result) :
    result.1.map Prod.fst = members.map PackedMember.name := by
  induction members generalizing size result with
  | nil =>
      cases h
      rfl
  | cons member rest ih =>
      obtain ⟨field, tail, total, _, hTail, rfl⟩ := fieldsFrom_cons.1 h
      rw [List.map_cons, List.map_cons]
      exact congrArg _ (ih hTail)

/-- Every place belongs to a member. -/
theorem exists_member_of_mem {kind : AggregateKind} {owner : String} {members : List PackedMember}
    {size : Nat} {result : List (String × FieldLayout) × Nat}
    (h : layouts.fieldsFrom primitives kind owner size members = .ok result)
    {pair : String × FieldLayout} (hPair : pair ∈ result.1) :
    ∃ member ∈ members, member.name = pair.1 ∧
      ∃ offset, layouts.fieldAt primitives owner member offset = .ok pair.2 := by
  induction members generalizing size result with
  | nil =>
      cases h
      cases hPair
  | cons member rest ih =>
      obtain ⟨field, tail, total, hField, hTail, rfl⟩ := fieldsFrom_cons.1 h
      rcases List.mem_cons.1 hPair with rfl | hPair
      · exact ⟨member, List.mem_cons_self, rfl, _, hField⟩
      · obtain ⟨other, hOther, hRest⟩ := ih hTail hPair
        exact ⟨other, List.mem_cons_of_mem _ hOther, hRest⟩

/-- Every member has a place. -/
theorem exists_place_of_mem {kind : AggregateKind} {owner : String} {members : List PackedMember}
    {size : Nat} {result : List (String × FieldLayout) × Nat}
    (h : layouts.fieldsFrom primitives kind owner size members = .ok result)
    {member : PackedMember} (hMember : member ∈ members) :
    ∃ field, (member.name, field) ∈ result.1 ∧
      ∃ offset, layouts.fieldAt primitives owner member offset = .ok field := by
  induction members generalizing size result with
  | nil => cases hMember
  | cons first rest ih =>
      obtain ⟨field, tail, total, hField, hTail, rfl⟩ := fieldsFrom_cons.1 h
      rcases List.mem_cons.1 hMember with rfl | hMember
      · exact ⟨field, List.mem_cons_self, _, hField⟩
      · obtain ⟨other, hOther, hRest⟩ := ih hTail hMember
        exact ⟨other, List.mem_cons_of_mem _ hOther, hRest⟩

/-- The members of a union begin at its start and end before its end. -/
theorem union_fields {owner : String} {members : List PackedMember} {size : Nat}
    {result : List (String × FieldLayout) × Nat}
    (h : layouts.fieldsFrom primitives .union owner size members = .ok result) :
    size ≤ result.2 ∧ ∀ member ∈ members, ∃ field, (member.name, field) ∈ result.1 ∧
      layouts.fieldAt primitives owner member 0 = .ok field ∧ field.size ≤ result.2 := by
  induction members generalizing size result with
  | nil =>
      cases h
      exact ⟨Nat.le_refl _, by simp⟩
  | cons member rest ih =>
      obtain ⟨field, tail, total, hField, hTail, rfl⟩ := fieldsFrom_cons.1 h
      obtain ⟨hLe, hRest⟩ := ih hTail
      have hOffset := offset_of_fieldAt hField
      refine ⟨by omega, fun other hOther => ?_⟩
      rcases List.mem_cons.1 hOther with rfl | hOther
      · exact ⟨field, by simp, hField, by dsimp only at hLe ⊢; omega⟩
      · obtain ⟨place, hMem, hPlace, hSize⟩ := hRest other hOther
        exact ⟨place, List.mem_cons_of_mem _ hMem, hPlace, hSize⟩

/-! ## All types -/

theorem typeLayout_eq_ok {type : PackedType} {layout : TypeLayout}
    (h : layouts.typeLayout primitives type = .ok layout) :
    ∃ fields, layouts.fieldsFrom primitives type.kind type.source 0 type.members =
        .ok (fields, layout.size) ∧ layout.fields = Table.ofList fields := by
  obtain ⟨⟨fields, size⟩, hFields, h⟩ := bind_eq_ok.1 h
  obtain rfl := pure_eq_ok.1 h
  exact ⟨fields, hFields, rfl⟩

theorem typeLayout_of_extends (h : final.Extends layouts) {type : PackedType}
    {layout : TypeLayout} (hLayout : layouts.typeLayout primitives type = .ok layout) :
    final.typeLayout primitives type = .ok layout := by
  obtain ⟨result, hFields, hPure⟩ := bind_eq_ok.1 hLayout
  exact bind_eq_ok.2 ⟨result, fieldsFrom_of_extends h hFields, hPure⟩

theorem addTypes_ok {types : List PackedType} (h : layouts.addTypes primitives types = .ok final)
    (hNodup : (types.map PackedType.source).Nodup)
    (hNew : ∀ type ∈ types, layouts.get? type.source = none) :
    final.Extends layouts ∧ ∀ type ∈ types, ∃ layout,
      final.get? type.source = some layout ∧ final.typeLayout primitives type = .ok layout := by
  induction types generalizing layouts with
  | nil =>
      cases h
      exact ⟨fun _ _ hGet => hGet, by simp⟩
  | cons type rest ih =>
      obtain ⟨layout, hLayout, h⟩ := bind_eq_ok.1 h
      rw [List.map_cons, List.nodup_cons] at hNodup
      have hOther : ∀ other ∈ rest, other.source ≠ type.source := fun other hMem hSame =>
        hNodup.1 (hSame ▸ List.mem_map_of_mem hMem)
      obtain ⟨hExtends, hRest⟩ := ih h hNodup.2 (by
        intro other hMem
        rw [Table.get?_insert, if_neg (hOther other hMem)]
        exact hNew other (List.mem_cons_of_mem _ hMem))
      have hAll : final.Extends layouts := by
        intro source found hFound
        refine hExtends source found ?_
        rw [Table.get?_insert, if_neg]
        · exact hFound
        · rintro rfl
          rw [hNew type (by simp)] at hFound
          cases hFound
      refine ⟨hAll, List.forall_mem_cons.2 ⟨⟨layout, ?_, ?_⟩, hRest⟩⟩
      · exact hExtends _ _ (by rw [Table.get?_insert, if_pos rfl])
      · exact typeLayout_of_extends hAll hLayout

/-- **Layouts of a program**: if its types have distinct names, the table gives each the
layout that is computed from the table itself. -/
theorem ofProgram_ok {program : Program} (h : ofProgram primitives program = .ok final)
    (hNodup : (program.types.map PackedType.source).Nodup) :
    ∀ type ∈ program.types, ∃ layout,
      final.get? type.source = some layout ∧ final.typeLayout primitives type = .ok layout :=
  (addTypes_ok h hNodup fun _ _ => rfl).2

end WireSchema.Layouts
