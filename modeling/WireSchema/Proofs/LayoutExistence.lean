import WireSchema.Proofs.ClosedProgram
import WireSchema.Proofs.LaidOut

/-!
# Which programs have layouts

Layouts are computed type by type, and a type can refer to another only if the other's layout
is there.  In a compiled program it always is: whatever a packed type refers to is declared
before it.  So a layout can be missing for one reason alone, a primitive type whose size
nobody has given, and then the error names the first member that has such a type.

## Main results

* `Layouts.addTypes_outcome`: the layouts of types that refer backwards.
* `Layouts.keys_addTypes`: which types get a layout.
* `layouts_of_compiled_program`: both for the types of a compiled program.
-/

namespace WireSchema

/-- The table has the primitive type of the member, which is that of its value or that of an
element which its descriptor describes, if it has one. -/
def PackedMember.SizedBy (member : PackedMember) (primitives : Primitives) : Prop :=
  ∀ spec, member.placement.representation = .primitive spec → (primitives.resolve? spec).isSome

/-- The error names the first of a type's members that are not sized. -/
def PackedType.FirstUnsized (type : PackedType) (primitives : Primitives) (error : LayoutError) :
    Prop :=
  ∃ lead member rest spec, type.members = lead ++ member :: rest ∧
    (∀ other ∈ lead, other.SizedBy primitives) ∧
    member.placement.representation = .primitive spec ∧ primitives.resolve? spec = none ∧
    error = .unsizedPrimitive type.source member.name spec

/-- The error names the first member that is not sized, in the order of the types and then of
their members. -/
def FirstUnsized (types : List PackedType) (primitives : Primitives) (error : LayoutError) :
    Prop :=
  ∃ before type after, types = before ++ type :: after ∧
    (∀ other ∈ before, ∀ member ∈ other.members, member.SizedBy primitives) ∧
    type.FirstUnsized primitives error

theorem FirstUnsized.eq_unsizedPrimitive {types : List PackedType} {primitives : Primitives}
    {error : LayoutError} (h : FirstUnsized types primitives error) :
    ∃ owner field spec, error = .unsizedPrimitive owner field spec := by
  obtain ⟨_, type, _, _, _, _, member, _, spec, _, _, _, _, hNamed⟩ := h
  exact ⟨type.source, member.name, spec, hNamed⟩

/-- A member that is not sized is why not all members are. -/
theorem FirstUnsized.exists_unsized {types : List PackedType} {primitives : Primitives}
    {error : LayoutError} (h : FirstUnsized types primitives error) :
    ∃ type ∈ types, ∃ member ∈ type.members, ¬ member.SizedBy primitives := by
  obtain ⟨before, type, after, hSplit, _, lead, member, rest, spec, hMembers, _, hSpec, hNone, _⟩ :=
    h
  refine ⟨type, by simp [hSplit], member, by simp [hMembers], fun hSized => ?_⟩
  have hSome := hSized spec hSpec
  rw [hNone] at hSome
  cases hSome

namespace Layouts

variable {layouts final : Layouts}

/-- The table has the type that the member refers to, if it refers to one. -/
def Declares (layouts : Layouts) (member : PackedMember) : Prop :=
  ∀ ref, member.placement.representation = .record ref → (layouts.get? ref.source).isSome

/-- Each type refers to what the table has or to what is before the type. -/
def DeclaresBefore (layouts : Layouts) (types : List PackedType) : Prop :=
  ∀ before type after, types = before ++ type :: after →
    ∀ member ∈ type.members, ∀ ref, member.placement.representation = .record ref →
      (layouts.get? ref.source).isSome ∨ ∃ other ∈ before, other.source = ref.source

theorem DeclaresBefore.head {first : PackedType} {rest : List PackedType}
    (h : layouts.DeclaresBefore (first :: rest)) :
    ∀ member ∈ first.members, layouts.Declares member := by
  intro member hMember ref hRef
  rcases h [] first rest rfl member hMember ref hRef with hSome | ⟨_, hMem, _⟩
  · exact hSome
  · cases hMem

/-- With the layout of the first type the table has whatever the rest refers to. -/
theorem DeclaresBefore.tail {first : PackedType} {rest : List PackedType}
    (h : layouts.DeclaresBefore (first :: rest)) (layout : TypeLayout) :
    DeclaresBefore (layouts.insert first.source layout) rest := by
  rintro before type after rfl member hMember ref hRef
  rw [Table.get?_insert]
  rcases h (first :: before) type after rfl member hMember ref hRef with
    hSome | ⟨other, hOther, hSource⟩
  · left
    split
    · rfl
    · exact hSome
  · rcases List.mem_cons.1 hOther with rfl | hOther
    · left
      rw [if_pos hSource.symm]
      rfl
    · exact .inr ⟨other, hOther, hSource⟩

/-! ## Members -/

section Outcome

variable (primitives : Primitives) (owner : String)

theorem elementOf_outcome {member : PackedMember} (hDeclared : layouts.Declares member) :
    ((∃ element, layouts.elementOf primitives owner member.name member.placement.representation =
          .ok element) ∧ member.SizedBy primitives) ∨
      ∃ spec, member.placement.representation = .primitive spec ∧
        primitives.resolve? spec = none ∧
        layouts.elementOf primitives owner member.name member.placement.representation =
          .error (.unsizedPrimitive owner member.name spec) := by
  cases hRepresentation : member.placement.representation with
  | primitive spec =>
      cases hResolve : primitives.resolve? spec with
      | none => exact .inr ⟨spec, rfl, hResolve, by simp [elementOf, hResolve]⟩
      | some primitive =>
          refine .inl ⟨⟨_, by simp [elementOf, hResolve]; rfl⟩, fun other hOther => ?_⟩
          cases hRepresentation.symm.trans hOther
          rw [hResolve]
          rfl
  | record ref =>
      obtain ⟨layout, hLayout⟩ := Option.isSome_iff_exists.1 (hDeclared ref hRepresentation)
      refine .inl ⟨⟨_, by simp [elementOf, hLayout]; rfl⟩, fun other hOther => ?_⟩
      cases hRepresentation.symm.trans hOther

/-- A member has a place unless its type is not sized. -/
theorem fieldAt_outcome {member : PackedMember} (offset : Nat)
    (hDeclared : layouts.Declares member) :
    ((∃ field, layouts.fieldAt primitives owner member offset = .ok field) ∧
        member.SizedBy primitives) ∨
      ∃ spec, member.placement.representation = .primitive spec ∧
        primitives.resolve? spec = none ∧
        layouts.fieldAt primitives owner member offset =
          .error (.unsizedPrimitive owner member.name spec) := by
  rcases elementOf_outcome primitives owner hDeclared with
    ⟨⟨element, hElement⟩, hSized⟩ | ⟨spec, hSpec, hNone, hError⟩
  · refine .inl ⟨?_, hSized⟩
    cases hPlacement : member.placement with
    | value representation =>
        rw [hPlacement] at hElement
        exact ⟨_, (fieldAt_value hPlacement).2 ⟨element, hElement, rfl⟩⟩
    | descriptor representation =>
        rw [hPlacement] at hElement
        exact ⟨_, (fieldAt_descriptor hPlacement).2 ⟨element, hElement, rfl⟩⟩
  · refine .inr ⟨spec, hSpec, hNone, ?_⟩
    unfold fieldAt
    cases hPlacement : member.placement with
    | value representation =>
        rw [hPlacement] at hError
        exact bind_eq_error.2 (.inl hError)
    | descriptor representation =>
        rw [hPlacement] at hError
        exact bind_eq_error.2 (.inl hError)

/-- The members of a type that refers to what is there are placed unless one is not sized. -/
theorem fieldsFrom_outcome (kind : AggregateKind) {members : List PackedMember} (size : Nat)
    (hDeclared : ∀ member ∈ members, layouts.Declares member) :
    ((∃ result, layouts.fieldsFrom primitives kind owner size members = .ok result) ∧
        ∀ member ∈ members, member.SizedBy primitives) ∨
      ∃ lead member rest spec, members = lead ++ member :: rest ∧
        (∀ other ∈ lead, other.SizedBy primitives) ∧
        member.placement.representation = .primitive spec ∧ primitives.resolve? spec = none ∧
        layouts.fieldsFrom primitives kind owner size members =
          .error (.unsizedPrimitive owner member.name spec) := by
  induction members generalizing size with
  | nil => exact .inl ⟨⟨_, rfl⟩, by simp⟩
  | cons first rest ih =>
      obtain ⟨hFirst, hRest⟩ := List.forall_mem_cons.1 hDeclared
      rcases fieldAt_outcome primitives owner (if kind.isUnion then 0 else size) hFirst with
        ⟨⟨field, hField⟩, hSized⟩ | ⟨spec, hSpec, hNone, hError⟩
      · rcases ih (max size (field.offset + field.size)) hRest with
          ⟨⟨⟨tail, total⟩, hTail⟩, hAll⟩ |
            ⟨lead, member, back, spec, rfl, hLead, hSpec, hNone, hError⟩
        · exact .inl ⟨⟨_, fieldsFrom_cons.2 ⟨field, tail, total, hField, hTail, rfl⟩⟩,
            List.forall_mem_cons.2 ⟨hSized, hAll⟩⟩
        · refine .inr ⟨first :: lead, member, back, spec, rfl,
            List.forall_mem_cons.2 ⟨hSized, hLead⟩, hSpec, hNone, ?_⟩
          exact bind_eq_error.2 (.inr ⟨field, hField, bind_eq_error.2 (.inl hError)⟩)
      · exact .inr ⟨[], first, rest, spec, rfl, by simp, hSpec, hNone,
          bind_eq_error.2 (.inl hError)⟩

/-! ## Types -/

end Outcome

theorem typeLayout_outcome (primitives : Primitives) {type : PackedType}
    (hDeclared : ∀ member ∈ type.members, layouts.Declares member) :
    ((∃ layout, layouts.typeLayout primitives type = .ok layout) ∧
        ∀ member ∈ type.members, member.SizedBy primitives) ∨
      ∃ error, layouts.typeLayout primitives type = .error error ∧
        type.FirstUnsized primitives error := by
  rcases fieldsFrom_outcome primitives type.source type.kind 0 hDeclared with
    ⟨⟨result, hFields⟩, hSized⟩ | ⟨lead, member, rest, spec, hSplit, hLead, hSpec, hNone, hError⟩
  · exact .inl ⟨⟨_, bind_eq_ok.2 ⟨result, hFields, rfl⟩⟩, hSized⟩
  · exact .inr ⟨_, bind_eq_error.2 (.inl hError),
      lead, member, rest, spec, hSplit, hLead, hSpec, hNone, rfl⟩

/-- **Layouts of types**: if each type refers to what the table has or what is before the type,
all types get their layouts unless a member is not sized, and the first such member is what
the error names. -/
theorem addTypes_outcome (primitives : Primitives) {types : List PackedType}
    (hDeclared : layouts.DeclaresBefore types) :
    ((∃ final, layouts.addTypes primitives types = .ok final) ∧
        ∀ type ∈ types, ∀ member ∈ type.members, member.SizedBy primitives) ∨
      ∃ error, layouts.addTypes primitives types = .error error ∧
        FirstUnsized types primitives error := by
  induction types generalizing layouts with
  | nil => exact .inl ⟨⟨layouts, rfl⟩, by simp⟩
  | cons first rest ih =>
      rcases typeLayout_outcome primitives hDeclared.head with
        ⟨⟨layout, hLayout⟩, hSized⟩ | ⟨error, hError, hNamed⟩
      · rcases ih (hDeclared.tail layout) with ⟨⟨final, hFinal⟩, hAll⟩ |
          ⟨error, hError, before, type, after, rfl, hBefore, hNamed⟩
        · exact .inl ⟨⟨final, bind_eq_ok.2 ⟨layout, hLayout, hFinal⟩⟩,
            List.forall_mem_cons.2 ⟨hSized, hAll⟩⟩
        · exact .inr ⟨error, bind_eq_error.2 (.inr ⟨layout, hLayout, hError⟩),
            first :: before, type, after, rfl, List.forall_mem_cons.2 ⟨hSized, hBefore⟩, hNamed⟩
      · exact .inr ⟨error, bind_eq_error.2 (.inl hError), [], first, rest, rfl, by simp, hNamed⟩

/-- A table gets the types that are added to it, in their order, if it has none of them. -/
theorem keys_addTypes {primitives : Primitives} {types : List PackedType}
    (h : layouts.addTypes primitives types = .ok final)
    (hNodup : (types.map PackedType.source).Nodup)
    (hNew : ∀ type ∈ types, type.source ∉ layouts.keys) :
    final.keys = layouts.keys ++ types.map PackedType.source := by
  induction types generalizing layouts with
  | nil =>
      cases h
      simp
  | cons first rest ih =>
      obtain ⟨layout, _, h⟩ := bind_eq_ok.1 h
      rw [List.map_cons, List.nodup_cons] at hNodup
      have hKeys : (layouts.insert first.source layout).keys = layouts.keys ++ [first.source] := by
        rw [Table.keys_insert, if_neg (hNew first List.mem_cons_self)]
      rw [ih h hNodup.2, hKeys, List.map_cons, List.append_assoc]
      · rfl
      · intro type hType
        rw [hKeys, List.mem_append, List.mem_singleton]
        rintro (hOld | hSame)
        · exact hNew type (List.mem_cons_of_mem _ hType) hOld
        · exact hNodup.1 (hSame ▸ List.mem_map_of_mem hType)

end Layouts

/-- **Layouts of compiled programs**: no type of a compiled program is referred to before it is
declared.  The program has layouts exactly if every primitive type of its members is in the
table, one for each packed type and in their order; otherwise the error names the first member
whose primitive type is not there. -/
theorem layouts_of_compiled_program {declarations : Declarations} {index : DirectiveIndex}
    {settings : Settings} {request : Request} {program : Program}
    (hCompile : compile declarations index settings request = .ok program)
    (primitives : Primitives) :
    (∀ name, Layouts.ofProgram primitives program ≠ .error (.undeclaredType name)) ∧
      ((∃ layouts, Layouts.ofProgram primitives program = .ok layouts) ↔
        ∀ type ∈ program.types, ∀ member ∈ type.members, member.SizedBy primitives) ∧
      (∀ layouts, Layouts.ofProgram primitives program = .ok layouts →
        layouts.keys = program.types.map PackedType.source) ∧
      (∀ error, Layouts.ofProgram primitives program = .error error →
        FirstUnsized program.types primitives error) := by
  obtain ⟨naming, rfl, h⟩ := compiled_of_compile hCompile
  have hOutcome : ((∃ layouts, Layouts.ofProgram primitives program = .ok layouts) ∧
        ∀ type ∈ program.types, ∀ member ∈ type.members, member.SizedBy primitives) ∨
      ∃ error, Layouts.ofProgram primitives program = .error error ∧
        FirstUnsized program.types primitives error := by
    refine Layouts.addTypes_outcome primitives fun before type after hSplit member hMember ref
      hRef => ?_
    obtain ⟨other, hOther, hSource, _⟩ := h.record_before hSplit hMember hRef
    exact .inr ⟨other, hOther, hSource⟩
  have hFails : ∀ error, Layouts.ofProgram primitives program = .error error →
      FirstUnsized program.types primitives error := by
    intro error hError
    rcases hOutcome with ⟨⟨layouts, hLayouts⟩, _⟩ | ⟨other, hOther, hNamed⟩
    · cases hError.symm.trans hLayouts
    · cases hError.symm.trans hOther
      exact hNamed
  refine ⟨fun name hError => ?_, ⟨?_, ?_⟩, fun layouts hLayouts => ?_, hFails⟩
  · obtain ⟨_, _, _, hNamed⟩ := (hFails _ hError).eq_unsizedPrimitive
    cases hNamed
  · rintro ⟨layouts, hLayouts⟩
    rcases hOutcome with ⟨_, hSized⟩ | ⟨error, hError, _⟩
    · exact hSized
    · cases hLayouts.symm.trans hError
  · intro hSized
    rcases hOutcome with ⟨hLayouts, _⟩ | ⟨_, _, hNamed⟩
    · exact hLayouts
    · obtain ⟨type, hType, member, hMember, hUnsized⟩ := hNamed.exists_unsized
      exact absurd (hSized type hType member hMember) hUnsized
  · exact Layouts.keys_addTypes hLayouts h.nodup_type_sources fun type _ hKey => by cases hKey

namespace Sample

/-- Only numbers of one byte have a size. -/
def bytesOnly : Primitives := Table.ofList [("uint8_t", ⟨1, .unsigned⟩)]

/-- The batch program has layouts of its three types over the standard table, and an error for
its first member of another type where only bytes have a size. -/
theorem batch_laid_out :
    (∃ layouts, Layouts.ofProgram .standard program = .ok layouts ∧
      layouts.keys = ["chreTestItem", "chreTestVariant", "chreTestBatch"]) ∧
    ∃ error, Layouts.ofProgram bytesOnly program = .error error ∧
      FirstUnsized program.types bytesOnly error := by
  have hStandard : (Layouts.ofProgram .standard program).toOption.isSome := by decide +kernel
  have hSources : program.types.map PackedType.source =
      ["chreTestItem", "chreTestVariant", "chreTestBatch"] := by decide +kernel
  have hUnsized : ∃ type ∈ program.types, ∃ member ∈ type.members,
      member.placement.representation = .primitive "uint16_t" := by decide +kernel
  have hNone : bytesOnly.resolve? "uint16_t" = none := by decide +kernel
  obtain ⟨_, _, hKeys, _⟩ := layouts_of_compiled_program compiles .standard
  obtain ⟨_, hSized, _, hFails⟩ := layouts_of_compiled_program compiles bytesOnly
  refine ⟨?_, ?_⟩
  · obtain ⟨layouts, hLayouts⟩ := Option.isSome_iff_exists.1 hStandard
    exact ⟨layouts, eq_ok_of_toOption hLayouts, hSources ▸ hKeys _ (eq_ok_of_toOption hLayouts)⟩
  · cases hOutcome : Layouts.ofProgram bytesOnly program with
    | ok layouts =>
        obtain ⟨type, hType, member, hMember, hSpec⟩ := hUnsized
        have hSome := hSized.1 ⟨layouts, hOutcome⟩ type hType member hMember _ hSpec
        rw [hNone] at hSome
        cases hSome
    | error error => exact ⟨error, rfl, hFails error hOutcome⟩

end Sample

end WireSchema
