import WireSchema.Proofs.ReadyEncoder
import WireSchema.Proofs.ReferenceEncoding

/-!
# Layouts against the reference

Layouts place members at offsets, and the size of a type is where its last member ends.
The reference adds up, or takes the greatest of, the sizes of the members.  For structures
and unions whose layouts exist the two agree.

## Main results

* `Layouts.ofProgram_size`: the sizes of packed types.
* `Compiled.placeOf_of_fieldLayout`: the place of a member.
-/

namespace WireSchema

/-- If the elements of a layout are scalars, they are of the type that represents them. -/
def FieldLayout.Represents (primitives : Primitives) (representation : Representation)
    (layout : FieldLayout) : Prop :=
  ∀ scalar, layout.scalar = some scalar → ∃ spec, representation = .primitive spec ∧
    primitives.resolve? spec = some ⟨layout.elementSize, scalar⟩

theorem FieldLayout.Represents.element {primitives : Primitives} {representation : Representation}
    {layout : FieldLayout} (h : layout.Represents primitives representation) :
    layout.element.Represents primitives representation :=
  h

/-- The layout of a member has its size, the size of its elements, and their class. -/
structure FieldLayout.PlaceOf (primitives : Primitives) (sizeOf : String → Nat)
    (member : PackedMember) (layout : FieldLayout) : Prop where
  size_eq : layout.size = Reference.memberSize primitives sizeOf member
  elementSize_eq : layout.elementSize =
    Reference.valueSize primitives sizeOf member.placement.representation
  represents : layout.Represents primitives member.placement.representation

namespace Layouts

variable {layouts final : Layouts} {primitives : Primitives}

/-- The sizes in a table are those that a function gives. -/
def SizedBy (layouts : Layouts) (sizeOf : String → Nat) : Prop :=
  ∀ source layout, layouts.get? source = some layout → layout.size = sizeOf source

section Members

variable {sizeOf : String → Nat} {owner : String}

theorem SizedBy.elementOf (h : layouts.SizedBy sizeOf) {name : String}
    {representation : Representation} {element : Nat × Option ScalarClass}
    (hElement : layouts.elementOf primitives owner name representation = .ok element) :
    element.1 = Reference.valueSize primitives sizeOf representation ∧
      ∀ scalar, element.2 = some scalar → ∃ spec, representation = .primitive spec ∧
        primitives.resolve? spec = some ⟨element.1, scalar⟩ := by
  unfold Layouts.elementOf at hElement
  unfold Reference.valueSize
  split at hElement
  · rename_i spec
    split at hElement
    · rename_i primitive hPrimitive
      cases hElement
      refine ⟨by simp [hPrimitive], fun scalar hScalar => ⟨spec, rfl, ?_⟩⟩
      cases hScalar
      exact hPrimitive
    · cases hElement
  · split at hElement
    · rename_i layout hLayout
      cases hElement
      exact ⟨h _ _ hLayout, fun scalar hScalar => by cases hScalar⟩
    · cases hElement

theorem SizedBy.fieldAt (h : layouts.SizedBy sizeOf) {member : PackedMember} {offset : Nat}
    {layout : FieldLayout} (hLayout : layouts.fieldAt primitives owner member offset = .ok layout) :
    layout.PlaceOf primitives sizeOf member := by
  cases hPlacement : member.placement with
  | value representation =>
      obtain ⟨element, hElement, rfl⟩ := (fieldAt_value hPlacement).1 hLayout
      obtain ⟨hSize, hScalar⟩ := h.elementOf hElement
      refine ⟨?_, ?_, ?_⟩
      · rw [Reference.memberSize, hPlacement, hSize]
      · rw [hPlacement]
        exact hSize
      · rw [hPlacement]
        exact hScalar
  | descriptor representation =>
      obtain ⟨element, hElement, rfl⟩ := (fieldAt_descriptor hPlacement).1 hLayout
      obtain ⟨hSize, hScalar⟩ := h.elementOf hElement
      refine ⟨?_, ?_, ?_⟩
      · rw [Reference.memberSize, hPlacement]
      · rw [hPlacement]
        exact hSize
      · rw [hPlacement]
        exact hScalar

/-- The members of a structure end where their sizes add up to. -/
theorem SizedBy.struct (h : layouts.SizedBy sizeOf) {members : List PackedMember} {size : Nat}
    {result : List (String × FieldLayout) × Nat}
    (hFields : layouts.fieldsFrom primitives .struct owner size members = .ok result) :
    result.2 = size + (members.map (Reference.memberSize primitives sizeOf)).sum := by
  induction members generalizing size result with
  | nil =>
      cases hFields
      rfl
  | cons member rest ih =>
      obtain ⟨field, tail, total, hField, hTail, rfl⟩ := fieldsFrom_cons.1 hFields
      have hOffset : field.offset = size := offset_of_fieldAt hField
      have hSize := (h.fieldAt hField).size_eq
      have hTotal := ih hTail
      rw [List.map_cons, List.sum_cons]
      dsimp only at hTotal ⊢
      omega

/-- A union ends where its greatest member does. -/
theorem SizedBy.union (h : layouts.SizedBy sizeOf) {members : List PackedMember} {size : Nat}
    {result : List (String × FieldLayout) × Nat}
    (hFields : layouts.fieldsFrom primitives .union owner size members = .ok result) :
    result.2 = max size ((members.map (Reference.memberSize primitives sizeOf)).foldr max 0) := by
  induction members generalizing size result with
  | nil =>
      cases hFields
      exact (Nat.max_zero size).symm
  | cons member rest ih =>
      obtain ⟨field, tail, total, hField, hTail, rfl⟩ := fieldsFrom_cons.1 hFields
      have hOffset : field.offset = 0 := offset_of_fieldAt hField
      have hSize := (h.fieldAt hField).size_eq
      have hTotal := ih hTail
      rw [List.map_cons, List.foldr_cons]
      dsimp only at hTotal ⊢
      omega

end Members

theorem SizedBy.addTypes {done types : List PackedType}
    (h : layouts.SizedBy (Reference.sizeAmong primitives done))
    (hTypes : layouts.addTypes primitives types = .ok final) :
    final.SizedBy (Reference.sizeAmong primitives (types.reverse ++ done)) := by
  induction types generalizing layouts done with
  | nil =>
      cases hTypes
      exact h
  | cons type rest ih =>
      obtain ⟨made, hMade, hRest⟩ := bind_eq_ok.1 hTypes
      rw [List.reverse_cons, List.append_assoc]
      refine ih ?_ hRest
      intro source layout hGet
      rw [Table.get?_insert] at hGet
      rw [List.singleton_append, Reference.sizeAmong]
      split at hGet
      · rename_i hSource
        cases hGet
        rw [if_pos hSource]
        obtain ⟨fields, hFields, _⟩ := typeLayout_eq_ok hMade
        dsimp only
        split
        · rename_i hKind
          rw [hKind] at hFields
          exact (h.struct hFields).trans (Nat.zero_add _)
        · rename_i hKind
          rw [hKind] at hFields
          exact (h.union hFields).trans (Nat.zero_max _)
      · rename_i hSource
        rw [if_neg hSource]
        exact h source layout hGet

/-- The table of a program has the sizes of the reference. -/
theorem ofProgram_size {ref : Reference} (h : ofProgram ref.primitives ref.program = .ok final) :
    final.SizedBy ref.typeSize := by
  have hNone : SizedBy Table.empty (Reference.sizeAmong ref.primitives []) :=
    fun _ _ hGet => by cases hGet
  have hAll := hNone.addTypes h
  rwa [List.append_nil] at hAll

/-- A table has no types but those it was made from. -/
theorem addTypes_source {types : List PackedType}
    (h : layouts.addTypes primitives types = .ok final)
    {source : String} {layout : TypeLayout} (hGet : final.get? source = some layout) :
    layouts.get? source = some layout ∨ ∃ type ∈ types, type.source = source := by
  induction types generalizing layouts with
  | nil =>
      cases h
      exact .inl hGet
  | cons type rest ih =>
      obtain ⟨made, _, hRest⟩ := bind_eq_ok.1 h
      rcases ih hRest with hThere | ⟨other, hOther, hSource⟩
      · rw [Table.get?_insert] at hThere
        split at hThere
        · rename_i hSource
          exact .inr ⟨type, List.mem_cons_self, hSource.symm⟩
        · exact .inl hThere
      · exact .inr ⟨other, List.mem_cons_of_mem _ hOther, hSource⟩

end Layouts

/-- What encodings depend on, as an encoder has it. -/
def Encoder.reference (encoder : Encoder) (primitives : Primitives) (room : Nat) : Reference :=
  ⟨encoder.program, primitives, encoder.constants, room⟩

section Compiled

variable {declarations : Declarations} {request : Request} {naming : Naming}
  {encoder : Encoder} {primitives : Primitives} {room : Nat}

theorem Encoder.typeSize_eq
    (hLayouts : Layouts.ofProgram primitives encoder.program = .ok encoder.layouts)
    {source : String} {size : Nat} (hSize : encoder.staticSize source = .ok size) :
    (encoder.reference primitives room).typeSize source = size := by
  obtain ⟨layout, hGet, rfl⟩ := Encoder.staticSize_eq_ok.1 hSize
  exact (Layouts.ofProgram_size hLayouts source layout hGet).symm

/-- A member that the layouts know is one of the program, with its size. -/
theorem Compiled.placeOf_of_fieldLayout
    (h : Compiled declarations request naming encoder.program)
    (hLayouts : Layouts.ofProgram primitives encoder.program = .ok encoder.layouts)
    (hFields : encoder.program.DistinctFields declarations) {source field : String}
    {layout : FieldLayout} (hLayout : encoder.fieldLayout source field = .ok layout) :
    ∃ member, (encoder.reference primitives room).member? source field = some member ∧
      layout.PlaceOf primitives (encoder.reference primitives room).typeSize member := by
  obtain ⟨table, hTable, hGet⟩ := Encoder.fieldLayout_eq_ok.1 hLayout
  rcases Layouts.addTypes_source hLayouts hTable with hEmpty | ⟨type, hType, rfl⟩
  · cases hEmpty
  obtain ⟨found, hFound, hMade⟩ := Layouts.ofProgram_ok hLayouts h.nodup_type_sources type hType
  rw [hTable] at hFound
  cases hFound
  obtain ⟨fields, hFrom, hPlaces⟩ := Layouts.typeLayout_eq_ok hMade
  rw [hPlaces] at hGet
  rcases Table.of_get?_insertAll hGet with hPair | hNone
  · obtain ⟨member, hMember, hName, offset, hAt⟩ := Layouts.exists_member_of_mem hFrom hPair
    refine ⟨member, ?_, (Layouts.ofProgram_size hLayouts).fieldAt hAt⟩
    unfold Reference.member? Encoder.reference
    dsimp only
    rw [h.type?_eq_some.2 ⟨hType, rfl⟩]
    exact (find?_name_eq_some (h.nodup_members hFields hType)).2 ⟨hMember, hName⟩
  · cases hNone

end Compiled

end WireSchema
