import Mathlib.Logic.Relation
import WireSchema.Proofs.BoundedCompile
import WireSchema.Proofs.ContainedTypes

/-!
# What a type graph can be built of

Building a graph checks its input in four places: while types are discovered, when their
members are outlined, when the types are put in order and when references are followed.
What it accepts can be said of the declarations alone.  Every name that the roots contain is
declared, every pointer is represented, no type contains itself, and every reference from a
directive leads to a member.

When the graph cannot be built the error is true of the input: it names a type that the
roots contain, or a field of one, and says what is wrong there.

## Main results

* `TypeGraph.failsOnly_build`: an error is true.
* `WellFormed.of_build`: what has been built of was well-formed.
* `build_accepts_exactly_wellFormed`: the graph can be built exactly of what is well-formed.
-/

namespace WireSchema

/-! ## Well-formed inputs -/

namespace Declarations

/-- The field belongs to a type that the roots contain. -/
structure FieldIn (declarations : Declarations) (roots : List String) (owner : String)
    (declaration : Declaration) (field : Field) : Prop where
  contained : declarations.Contained roots owner
  declared : declarations.get? owner = some declaration
  mem : field ∈ declaration.fields

/-- A field of the type `owner` names `name`. -/
def Nests (declarations : Declarations) (owner name : String) : Prop :=
  ∃ declaration, declarations.get? owner = some declaration ∧
    ∃ field ∈ declaration.fields, field.type.aggregateName? = some name

/-- The field has the type of a union, which has the given declaration. -/
def IsUnionTyped (declarations : Declarations) (field : Field) (name : String)
    (union : Declaration) : Prop :=
  field.type.aggregateName? = some name ∧ declarations.get? name = some union ∧
    union.kind = .union

end Declarations

def Declaration.HasField (declaration : Declaration) (name : String) : Prop :=
  ∃ field ∈ declaration.fields, field.name = name

/-- A pointer has a directive that says what stands for it. -/
def Field.IsRepresented (index : DirectiveIndex) (owner : String) (field : Field) : Prop :=
  field.type.isPointer = true →
    (∃ spec, .overrideType spec ∈ index.lookup owner field.name) ∨
      ∃ lengthField, .varLenArray lengthField ∈ index.lookup owner field.name

/-- What a directive on a field refers to is there: the length field and the discriminator among
the fields of the same type, and the members of a mapping in the union that is the field's
type. -/
def Declarations.Leads (declarations : Declarations) (declaration : Declaration) (field : Field) :
    Directive → Prop
  | .varLenArray lengthField => declaration.HasField lengthField
  | .unionVariant discriminator mapping =>
    declaration.HasField discriminator ∧
      ∃ name union, declarations.IsUnionTyped field name union ∧
        ∀ pair ∈ mapping, union.HasField pair.2
  | _ => True

/-- What the roots contain is complete and makes sense. -/
structure WellFormed (declarations : Declarations) (index : DirectiveIndex)
    (roots : List String) : Prop where
  declared : ∀ name, declarations.Contained roots name →
    ∃ declaration, declarations.get? name = some declaration
  represented : ∀ owner declaration field, declarations.FieldIn roots owner declaration field →
    field.IsRepresented index owner
  acyclic : ∀ name, declarations.Contained roots name →
    ¬ Relation.TransGen declarations.Nests name name
  leads : ∀ owner declaration field, declarations.FieldIn roots owner declaration field →
    ∀ directive ∈ index.lookup owner field.name, declarations.Leads declaration field directive

/-! ## True errors -/

/-- What the error says is so. -/
def CompileError.TrueOf (declarations : Declarations) (index : DirectiveIndex)
    (roots : List String) : CompileError → Prop
  | .unknownType name => declarations.Contained roots name ∧ declarations.get? name = none
  | .unannotatedPointer owner name =>
    ∃ declaration field, declarations.FieldIn roots owner declaration field ∧ field.name = name ∧
      ¬ field.IsRepresented index owner
  | .dependencyCycle path =>
    (∀ name ∈ path, declarations.Contained roots name) ∧
      path.IsChain declarations.Nests ∧
      ∃ name rest, path = name :: rest ++ [name] ∧ (name :: rest).Nodup
  | .unknownLengthField owner name lengthField =>
    ∃ declaration field, declarations.FieldIn roots owner declaration field ∧ field.name = name ∧
      .varLenArray lengthField ∈ index.lookup owner name ∧ ¬ declaration.HasField lengthField
  | .unknownDiscriminator owner name discriminator =>
    ∃ declaration field mapping, declarations.FieldIn roots owner declaration field ∧
      field.name = name ∧ .unionVariant discriminator mapping ∈ index.lookup owner name ∧
      ¬ declaration.HasField discriminator
  | .notAUnion owner name =>
    ∃ declaration field discriminator mapping,
      declarations.FieldIn roots owner declaration field ∧ field.name = name ∧
      .unionVariant discriminator mapping ∈ index.lookup owner name ∧
      ¬ ∃ type union, declarations.IsUnionTyped field type union
  | .invalidVariantMapping type target =>
    ∃ union, ¬ union.HasField target ∧
      ∃ owner declaration field discriminator mapping value,
        declarations.FieldIn roots owner declaration field ∧
        declarations.IsUnionTyped field type union ∧
        .unionVariant discriminator mapping ∈ index.lookup owner field.name ∧
        (value, target) ∈ mapping
  | _ => False

section

variable {declarations : Declarations} {index : DirectiveIndex} {roots : List String}

theorem Declarations.Contained.of_nests {owner name : String}
    (h : declarations.Contained roots owner) (hNests : declarations.Nests owner name) :
    declarations.Contained roots name := by
  obtain ⟨declaration, hGet, field, hField, hName⟩ := hNests
  exact .nested h hGet hField hName

/-- Types in a circle contain themselves. -/
theorem transGen_of_isChain {α : Type} {R : α → α → Prop} {a : α} {rest : List α}
    (h : (a :: rest ++ [a]).IsChain R) : Relation.TransGen R a a := by
  cases rest with
  | nil => exact .single (List.isChain_pair.1 h)
  | cons b rest =>
      obtain ⟨hFirst, hRest⟩ := List.isChain_cons_cons.1 h
      refine .head' hFirst (List.relationReflTransGen_of_exists_isChain_cons (rest ++ [a]) hRest ?_)
      simp

/-- An error is not true of a well-formed input. -/
theorem CompileError.TrueOf.not_wellFormed {e : CompileError}
    (h : e.TrueOf declarations index roots) : ¬ WellFormed declarations index roots := by
  intro hWell
  cases e with
  | unknownType name =>
      obtain ⟨hContained, hNone⟩ := h
      obtain ⟨declaration, hGet⟩ := hWell.declared name hContained
      simp [hNone] at hGet
  | unannotatedPointer owner name =>
      obtain ⟨declaration, field, hField, _, hNot⟩ := h
      exact hNot (hWell.represented owner declaration field hField)
  | dependencyCycle path =>
      obtain ⟨hContained, hChain, name, rest, rfl, _⟩ := h
      exact hWell.acyclic name (hContained name (by simp)) (transGen_of_isChain hChain)
  | unknownLengthField owner name lengthField =>
      obtain ⟨declaration, field, hField, rfl, hDirective, hNot⟩ := h
      exact hNot (hWell.leads owner declaration field hField _ hDirective)
  | unknownDiscriminator owner name discriminator =>
      obtain ⟨declaration, field, mapping, hField, rfl, hDirective, hNot⟩ := h
      exact hNot (hWell.leads owner declaration field hField _ hDirective).1
  | notAUnion owner name =>
      obtain ⟨declaration, field, discriminator, mapping, hField, rfl, hDirective, hNot⟩ := h
      obtain ⟨type, union, hUnion, _⟩ := (hWell.leads owner declaration field hField _ hDirective).2
      exact hNot ⟨type, union, hUnion⟩
  | invalidVariantMapping type target =>
      obtain ⟨union, hNot, owner, declaration, field, discriminator, mapping, value, hField,
        ⟨hName, hGet, _⟩, hDirective, hPair⟩ := h
      obtain ⟨same, other, ⟨hSame, hOther, _⟩, hAll⟩ :=
        (hWell.leads owner declaration field hField _ hDirective).2
      obtain rfl := Option.some.inj (hName.symm.trans hSame)
      obtain rfl := Option.some.inj (hGet.symm.trans hOther)
      exact hNot (hAll _ hPair)
  | namingConvention typeName apiPrefix => exact h
  | structureNaming typeName apiPrefix service => exact h
  | unsupportedNesting typeName field => exact h
  | undiscriminatedUnion typeName field => exact h
  | unionRoot name => exact h

/-! ## Outlines -/

/-- A member is representable if something stands for it. -/
theorem isRepresentable_iff {owner : String} {field : Field} :
    (Member.annotated index owner field).isRepresentable = true ↔
      field.IsRepresented index owner := by
  rw [Member.isRepresentable, Field.IsRepresented, Bool.or_eq_true, Bool.or_eq_true,
    Member.isSome_typeOverride?_iff, Member.isSome_lengthField?_iff, or_assoc, Bool.not_eq_true',
    ← Bool.not_eq_true, ← imp_iff_not_or]
  rfl

theorem represented_of_ofField {owner : String} {field : Field} {member : Member}
    (h : Member.ofField index owner field = .ok member) : field.IsRepresented index owner := by
  refine isRepresentable_iff.1 ?_
  unfold Member.ofField at h
  dsimp only at h
  split at h
  · rename_i hRepresentable
    exact hRepresentable
  · cases h

/-- An outline can be made if the type is declared and its pointers are represented. -/
theorem failsOnly_ofName {name : String} (hName : declarations.Contained roots name) :
    FailsOnly (CompileError.TrueOf declarations index roots)
      (Outline.ofName declarations index name) := by
  unfold Outline.ofName
  split
  · rename_i hNone
    exact .error ⟨hName, hNone⟩
  · rename_i declaration hGet
    refine (FailsOnly.mapM fun field hField => ?_).bind fun _ _ => .pure _
    unfold Member.ofField
    dsimp only
    split
    · exact .ok _
    · rename_i hNot
      exact .error ⟨declaration, field, ⟨hName, hGet, hField⟩, rfl,
        fun hRepresented => hNot (isRepresentable_iff.2 hRepresented)⟩

/-- The types nested in a declared outline are those that the fields of its type name. -/
theorem Outline.Declared.mem_nestedNames_iff {outline : Outline}
    (h : outline.Declared declarations index) {name : String} :
    name ∈ outline.nestedNames ↔ declarations.Nests outline.name name := by
  obtain ⟨declaration, hGet, _, hMembers⟩ := h
  rw [Outline.nestedNames, List.mem_filterMap, hMembers, Declaration.members]
  constructor
  · rintro ⟨member, hMember, hNested⟩
    obtain ⟨field, hField, rfl⟩ := List.mem_map.1 hMember
    exact ⟨declaration, hGet, field, hField, hNested⟩
  · rintro ⟨same, hSame, field, hField, hNested⟩
    obtain rfl := Option.some.inj (hGet.symm.trans hSame)
    exact ⟨_, List.mem_map_of_mem hField, hNested⟩

theorem Outline.Declared.hasMember_iff {outline : Outline} {declaration : Declaration}
    (h : outline.Declared declarations index)
    (hGet : declarations.get? outline.name = some declaration) {name : String} :
    outline.hasMember name = true ↔ declaration.HasField name := by
  obtain ⟨same, hSame, _, hMembers⟩ := h
  obtain rfl := Option.some.inj (hGet.symm.trans hSame)
  rw [Outline.hasMember, hMembers, Declaration.members, List.any_map, List.any_eq_true]
  exact exists_congr fun field => and_congr_right fun _ => beq_iff_eq

/-- A search for types stays with what the roots contain. -/
theorem closed_discovery :
    (discovery declarations index).Closed (declarations.Contained roots) := by
  intro name outline next hContained hVisit inner hInner
  obtain ⟨hOutline, rfl⟩ := TypeGraph.ofName_of_visit hVisit
  obtain ⟨rfl, hDeclared⟩ := TypeGraph.declared_of_ofName hOutline
  exact hContained.of_nests (hDeclared.mem_nestedNames_iff.1 hInner)

theorem failsOnly_discover :
    FailsOnly (CompileError.TrueOf declarations index roots)
      (discover declarations index roots) := by
  refine FailsOnly.map fun e hError => ?_
  obtain ⟨name, hContained, hVisit⟩ :=
    Worklist.run_error hError closed_discovery fun root hRoot => .root hRoot
  apply failsOnly_ofName hContained e
  unfold discovery at hVisit
  dsimp only at hVisit
  split at hVisit
  · cases hVisit
  · rename_i hOutline
    cases hVisit
    exact hOutline

/-! ## Discovered outlines -/

section Discovered

variable {outlines : List Outline}

/-- Whatever is discovered is contained in the roots, and its pointers are represented. -/
theorem of_mem_discover (h : discover declarations index roots = .ok outlines) {outline : Outline}
    (hOutline : outline ∈ outlines) :
    declarations.Contained roots outline.name ∧
      ∀ declaration field, declarations.FieldIn roots outline.name declaration field →
        field.IsRepresented index outline.name := by
  obtain ⟨found, hRun, rfl⟩ := map_eq_ok.1 h
  obtain ⟨pair, hPair, rfl⟩ := List.mem_map.1 hOutline
  obtain ⟨next, hVisit, _⟩ := Worklist.run_visited hRun hPair
  obtain ⟨hMade, _⟩ := TypeGraph.ofName_of_visit hVisit
  obtain ⟨hName, _⟩ := TypeGraph.declared_of_ofName hMade
  rw [hName]
  refine ⟨?_, fun declaration field hField => ?_⟩
  · exact Worklist.run_only hRun closed_discovery (fun root hRoot => .root hRoot) pair.1
      (List.mem_map_of_mem hPair)
  · unfold Outline.ofName at hMade
    rw [hField.declared] at hMade
    obtain ⟨members, hMembers, _⟩ := bind_eq_ok.1 hMade
    obtain ⟨member, _, hMember⟩ := exists_right_of_mem (mapM_eq_ok.1 hMembers) hField.mem
    exact represented_of_ofField hMember

namespace TypeGraph

/-- Whatever the roots contain is discovered. -/
theorem Discovered.exists_outline (h : Discovered declarations index roots outlines) {name : String}
    (hContained : declarations.Contained roots name) :
    ∃ outline ∈ outlines, outline.name = name := by
  induction hContained with
  | root hRoot => exact h.roots_mem _ hRoot
  | nested _ hGet hField hName ih =>
      obtain ⟨outline, hOutline, rfl⟩ := ih
      refine h.nested outline hOutline _ ?_
      exact (h.declared outline hOutline).mem_nestedNames_iff.2 ⟨_, hGet, _, hField, hName⟩

theorem Discovered.find?_link (h : Discovered declarations index roots outlines) {name : String}
    {entry : TypeEntry} :
    (link outlines roots).find? name = some entry ↔
      ∃ outline ∈ outlines, outline.name = name ∧
        linkedEntry (linkables outlines) outline = entry := by
  have hNames : ((link outlines roots).entries.map fun entry => entry.name).Nodup := by
    have hSame : (link outlines roots).entries.map (fun entry => entry.name) =
        outlines.map Outline.name := List.map_map
    rw [hSame]
    exact h.nodup_names
  rw [TypeGraph.find?, find?_name_eq_some hNames]
  constructor
  · rintro ⟨hMem, rfl⟩
    obtain ⟨outline, hOutline, rfl⟩ := List.mem_map.1 hMem
    exact ⟨outline, hOutline, rfl, rfl⟩
  · rintro ⟨outline, hOutline, rfl, rfl⟩
    exact ⟨List.mem_map_of_mem hOutline, rfl⟩

/-! ## Cycles -/

theorem nameOf_link {id : TypeId} {outline : Outline} (h : outlines[id]? = some outline) :
    (link outlines roots).nameOf id = outline.name := by
  rw [nameOf, get?_link_of_getElem? h]
  rfl

/-- Two places with outlines of one name are the same place. -/
theorem Discovered.id_inj (h : Discovered declarations index roots outlines) {i j : TypeId}
    {outline other : Outline} (hi : outlines[i]? = some outline) (hj : outlines[j]? = some other)
    (hName : outline.name = other.name) : i = j := by
  have hLt : i < (outlines.map Outline.name).length := by
    rw [List.length_map]
    exact (List.getElem?_eq_some_iff.1 hi).1
  refine (List.getElem?_inj hLt h.nodup_names).1 ?_
  rw [List.getElem?_map, List.getElem?_map, hi, hj]
  exact congrArg some hName

/-- The types of a linked graph are nested in each other as the declarations say. -/
theorem Discovered.nests_of_links (h : Discovered declarations index roots outlines) {id d : TypeId}
    (hLinks : (link outlines roots).Links id d) :
    declarations.Nests ((link outlines roots).nameOf id) ((link outlines roots).nameOf d) := by
  obtain ⟨entry, hEntry, hd⟩ := hLinks
  rw [get?_link] at hEntry
  obtain ⟨outline, hOutline, rfl⟩ := Option.map_eq_some_iff.1 hEntry
  obtain ⟨other, hOther, hName⟩ := mem_dependencies_linkedEntry.1 hd
  rw [nameOf_link hOutline, nameOf_link hOther]
  exact (h.declared outline (List.mem_of_getElem? hOutline)).mem_nestedNames_iff.1 hName

theorem Links.valid {graph : TypeGraph} {id d : TypeId} (h : graph.Links id d) :
    ∃ entry, graph.get? id = some entry := by
  obtain ⟨entry, hEntry, _⟩ := h
  exact ⟨entry, hEntry⟩

/-- The types of a cycle are types of the graph. -/
theorem IsCycle.valid {graph : TypeGraph} {cycle : List TypeId} (h : graph.IsCycle cycle) :
    ∀ id ∈ cycle, ∃ entry, graph.get? id = some entry := by
  obtain ⟨id, rest, rfl, _, hChain⟩ := h
  have hFront : ∀ x ∈ id :: rest, ∃ entry, graph.get? x = some entry := by
    intro x hx
    obtain ⟨before, after, hSplit⟩ := List.append_of_mem hx
    -- Something follows `x`, because the cycle is closed behind it.
    obtain ⟨next, tail, hTail⟩ : ∃ next tail, after ++ [id] = next :: tail := by
      cases after <;> exact ⟨_, _, rfl⟩
    rw [hSplit, List.append_assoc, List.cons_append, hTail, List.isChain_append_cons_cons] at hChain
    exact hChain.2.1.valid
  intro x hx
  rcases List.mem_append.1 hx with hx | hx
  · exact hFront x hx
  · exact hFront x (List.mem_singleton.1 hx ▸ List.mem_cons_self)

/-- A graph whose types cannot be put in order has a cycle, and the error names its types. -/
theorem exists_isCycle_of_checkAcyclic {graph : TypeGraph} {e : CompileError}
    (h : graph.checkAcyclic = .error e) :
    ∃ cycle, graph.IsCycle cycle ∧ e = .dependencyCycle (cycle.map graph.nameOf) := by
  unfold checkAcyclic at h
  cases hSearch : graph.depthFirst [] [] graph.ids with
  | ok order => simp [hSearch, Except.mapError] at h
  | error cycle =>
      rw [hSearch] at h
      exact ⟨cycle, depthFirst_error hSearch List.nodup_nil fun d _ => List.isChain_singleton d,
        (Except.error.inj h).symm⟩

theorem failsOnly_checkAcyclic (h : discover declarations index roots = .ok outlines) :
    FailsOnly (CompileError.TrueOf declarations index roots)
      (link outlines roots).checkAcyclic := by
  intro e hError
  have hFound := discovered_of_discover h
  obtain ⟨cycle, hCycle, rfl⟩ := exists_isCycle_of_checkAcyclic hError
  have hOutline : ∀ id ∈ cycle, ∃ outline, outlines[id]? = some outline := by
    intro id hid
    obtain ⟨entry, hEntry⟩ := hCycle.valid id hid
    rw [get?_link] at hEntry
    obtain ⟨outline, hOutline, _⟩ := Option.map_eq_some_iff.1 hEntry
    exact ⟨outline, hOutline⟩
  obtain ⟨id, rest, rfl, hNodup, hChain⟩ := hCycle
  refine ⟨fun name hName => ?_, ?_, (link outlines roots).nameOf id,
    rest.map (link outlines roots).nameOf, by simp, ?_⟩
  · obtain ⟨x, hx, rfl⟩ := List.mem_map.1 hName
    obtain ⟨outline, hAt⟩ := hOutline x hx
    rw [nameOf_link hAt]
    exact (of_mem_discover h (List.mem_of_getElem? hAt)).1
  · rw [List.isChain_map]
    exact hChain.imp fun _ _ => hFound.nests_of_links
  · rw [← List.map_cons]
    refine hNodup.map_on fun x hx y hy hSame => ?_
    obtain ⟨outline, hAt⟩ := hOutline x (List.mem_append_left _ hx)
    obtain ⟨other, hOtherAt⟩ := hOutline y (List.mem_append_left _ hy)
    rw [nameOf_link hAt, nameOf_link hOtherAt] at hSame
    exact hFound.id_inj hAt hOtherAt hSame

/-! ## References -/

/-- The union that a member names is the one of its field. -/
theorem Discovered.isUnionTyped (h : Discovered declarations index roots outlines) {owner : String}
    {field : Field} {entry : TypeEntry}
    (hUnion : ((link outlines roots).nested? (Member.annotated index owner field)).filter
      (fun entry => entry.isUnion) = some entry) :
    ∃ union, declarations.IsUnionTyped field entry.name union ∧
      ∀ name, entry.hasMember name = true ↔ union.HasField name := by
  obtain ⟨hNested, hKind⟩ := Option.filter_eq_some_iff.1 hUnion
  obtain ⟨name, hName, hFind⟩ := Option.bind_eq_some_iff.1 hNested
  obtain ⟨outline, hOutline, rfl, rfl⟩ := h.find?_link.1 hFind
  have hDeclared := h.declared outline hOutline
  obtain ⟨union, hGet, hSame, _⟩ := hDeclared
  have hUnionKind : outline.kind = .union := AggregateKind.isUnion_eq_true.1 hKind
  exact ⟨union, ⟨hName, hGet, hSame.symm.trans hUnionKind⟩,
    fun _ => (h.declared outline hOutline).hasMember_iff hGet⟩

/-- A member that names no union of the graph has a field that names no union. -/
theorem Discovered.not_isUnionTyped (h : Discovered declarations index roots outlines)
    {outline : Outline} (hOutline : outline ∈ outlines) {declaration : Declaration} {field : Field}
    (hGet : declarations.get? outline.name = some declaration)
    (hField : field ∈ declaration.fields)
    (hNone : ((link outlines roots).nested? (Member.annotated index outline.name field)).filter
      (fun entry => entry.isUnion) = none) :
    ¬ ∃ type union, declarations.IsUnionTyped field type union := by
  rintro ⟨type, union, hName, hUnion, hKind⟩
  have hNests : declarations.Nests outline.name type := ⟨declaration, hGet, field, hField, hName⟩
  obtain ⟨other, hOther, rfl⟩ := h.nested outline hOutline type
    ((h.declared outline hOutline).mem_nestedNames_iff.2 hNests)
  have hNested : (link outlines roots).nested? (Member.annotated index outline.name field) =
      some (linkedEntry (linkables outlines) other) :=
    Option.bind_eq_some_iff.2 ⟨other.name, hName, h.find?_link.2 ⟨other, hOther, rfl, rfl⟩⟩
  obtain ⟨same, hSame, hOtherKind, _⟩ := h.declared other hOther
  obtain rfl := Option.some.inj (hUnion.symm.trans hSame)
  have hIsUnion : (linkedEntry (linkables outlines) other).isUnion = true := by
    show other.kind.isUnion = true
    rw [hOtherKind, hKind]
    rfl
  rw [hNested, Option.filter_some, if_pos hIsUnion] at hNone
  cases hNone

section Reference

variable {outline : Outline} {declaration : Declaration} {field : Field} {directive : Directive}

/-- A reference that has been checked leads to a member. -/
theorem Discovered.leads_of_checkReference (h : Discovered declarations index roots outlines)
    (hOutline : outline ∈ outlines)
    (hGet : declarations.get? outline.name = some declaration)
    (hCheck : (link outlines roots).checkReference outline
      (Member.annotated index outline.name field) directive = .ok ()) :
    declarations.Leads declaration field directive := by
  have hFields : ∀ name, outline.hasMember name = true ↔ declaration.HasField name :=
    fun _ => (h.declared outline hOutline).hasMember_iff hGet
  cases directive with
  | varLenArray lengthField =>
      rw [checkReference] at hCheck
      split at hCheck
      · rename_i hMember
        exact (hFields _).1 hMember
      · cases hCheck
  | unionVariant discriminator mapping =>
      rw [checkReference] at hCheck
      split at hCheck
      · cases hCheck
      · rename_i hMember
        split at hCheck
        · cases hCheck
        · rename_i entry hUnion
          obtain ⟨union, hTyped, hVariants⟩ := h.isUnionTyped hUnion
          split at hCheck
          · cases hCheck
          · rename_i hMissing
            refine ⟨(hFields _).1 (by simpa using hMember), entry.name, union, hTyped,
              fun pair hPair => ?_⟩
            exact (hVariants _).1 (by simpa using List.find?_eq_none.1 hMissing pair hPair)
  | renameType name => trivial
  | overrideType spec => trivial
  | fixedValue value => trivial
  | enumeration typeName => trivial

/-- A reference that fails its check leads nowhere. -/
theorem Discovered.failsOnly_checkReference (h : Discovered declarations index roots outlines)
    (hOutline : outline ∈ outlines)
    (hField : declarations.FieldIn roots outline.name declaration field)
    (hDirective : directive ∈ index.lookup outline.name field.name) :
    FailsOnly (CompileError.TrueOf declarations index roots)
      ((link outlines roots).checkReference outline
        (Member.annotated index outline.name field) directive) := by
  have hFields : ∀ name, outline.hasMember name = true ↔ declaration.HasField name :=
    fun _ => (h.declared outline hOutline).hasMember_iff hField.declared
  cases directive with
  | varLenArray lengthField =>
      rw [checkReference]
      split
      · exact .ok ()
      · rename_i hMember
        exact .error ⟨declaration, field, hField, rfl, hDirective,
          fun hHas => hMember ((hFields _).2 hHas)⟩
  | unionVariant discriminator mapping =>
      rw [checkReference]
      split
      · rename_i hMember
        refine .error ⟨declaration, field, mapping, hField, rfl, hDirective, fun hHas => ?_⟩
        simp [(hFields _).2 hHas] at hMember
      · split
        · rename_i hNone
          exact .error ⟨declaration, field, discriminator, mapping, hField, rfl, hDirective,
            h.not_isUnionTyped hOutline hField.declared hField.mem hNone⟩
        · rename_i entry hUnion
          obtain ⟨union, hTyped, hVariants⟩ := h.isUnionTyped hUnion
          split
          · rename_i missing hMissing
            have hLacks := List.find?_some hMissing
            refine .error ⟨union, fun hHas => ?_, outline.name, declaration, field, discriminator,
              mapping, missing.1, hField, hTyped, hDirective, List.mem_of_find?_eq_some hMissing⟩
            simp [(hVariants _).2 hHas] at hLacks
          · exact .ok ()
  | renameType name => exact .ok ()
  | overrideType spec => exact .ok ()
  | fixedValue value => exact .ok ()
  | enumeration typeName => exact .ok ()

end Reference

/-- The fields of a discovered outline are fields that the roots contain. -/
theorem fieldIn_of_mem_discover (h : discover declarations index roots = .ok outlines)
    {outline : Outline} (hOutline : outline ∈ outlines) {member : Member}
    (hMember : member ∈ outline.members) :
    ∃ declaration field, declarations.FieldIn roots outline.name declaration field ∧
      Member.annotated index outline.name field = member := by
  obtain ⟨declaration, hGet, _, hMembers⟩ := (discovered_of_discover h).declared outline hOutline
  rw [hMembers] at hMember
  obtain ⟨field, hField, rfl⟩ := List.mem_map.1 hMember
  exact ⟨declaration, field, ⟨(of_mem_discover h hOutline).1, hGet, hField⟩, rfl⟩

theorem failsOnly_checkReferences (h : discover declarations index roots = .ok outlines) :
    FailsOnly (CompileError.TrueOf declarations index roots)
      (link outlines roots).checkReferences := by
  refine FailsOnly.forM fun entry hEntry => FailsOnly.forM fun member hMember =>
    FailsOnly.forM fun directive hDirective => ?_
  obtain ⟨outline, hOutline, rfl⟩ := List.mem_map.1 hEntry
  obtain ⟨declaration, field, hField, rfl⟩ := fieldIn_of_mem_discover h hOutline hMember
  exact (discovered_of_discover h).failsOnly_checkReference hOutline hField hDirective

/-- **True errors**: what a graph cannot be built for is so. -/
theorem failsOnly_build :
    FailsOnly (CompileError.TrueOf declarations index roots) (build declarations index roots) := by
  refine failsOnly_discover.bind fun outlines hDiscover => ?_
  refine (failsOnly_checkAcyclic hDiscover).bind fun order _ => ?_
  exact (failsOnly_checkReferences hDiscover).bind fun _ _ => .pure _

/-! ## Ranks -/

/-- The types of a sound graph have ranks, and a nested type has a lower one. -/
theorem Sound.exists_rank {graph : TypeGraph} (h : graph.Sound declarations index roots) :
    ∃ rank : String → Nat, ∀ owner name, declarations.Contained roots owner →
      declarations.Nests owner name → rank name < rank owner := by
  have hEnum := h.enumeration_postOrder graph.roots
  refine ⟨((graph.entriesOf (graph.postOrder graph.roots)).map fun entry => entry.name).idxOf, ?_⟩
  intro owner name hContained ⟨declaration, hGet, field, hField, hName⟩
  obtain ⟨entry, hEntry, rfl⟩ := (h.mem_names_iff owner).2 hContained
  obtain ⟨nested, hNested, rfl, hMem⟩ :=
    h.exists_nested (hEnum.mem_entries entry hEntry) hGet hField hName
  obtain ⟨before, after, hSplit⟩ := List.append_of_mem hEntry
  have hBefore := hEnum.nested_before before entry after hSplit nested hNested hMem
  have hNames := congrArg (List.map fun entry : TypeEntry => entry.name) hSplit
  rw [List.map_append, List.map_cons] at hNames
  exact idxOf_lt_of_before hEnum.nodup_names hNames (List.mem_map_of_mem hBefore)

/-- No type of a sound graph contains itself. -/
theorem Sound.acyclic {graph : TypeGraph} (h : graph.Sound declarations index roots) {name : String}
    (hContained : declarations.Contained roots name) :
    ¬ Relation.TransGen declarations.Nests name name := by
  obtain ⟨rank, hRank⟩ := h.exists_rank
  have hLower : ∀ inner, Relation.TransGen declarations.Nests name inner →
      declarations.Contained roots inner ∧ rank inner < rank name := by
    intro inner hInner
    induction hInner with
    | single hNests => exact ⟨hContained.of_nests hNests, hRank _ _ hContained hNests⟩
    | tail _ hNests ih =>
        exact ⟨ih.1.of_nests hNests, Nat.lt_trans (hRank _ _ ih.1 hNests) ih.2⟩
  intro hCircle
  exact Nat.lt_irrefl _ (hLower name hCircle).2

end TypeGraph

end Discovered

/-- **Accepted inputs**: whatever a graph was built of is well-formed. -/
theorem WellFormed.of_build {graph : TypeGraph}
    (h : TypeGraph.build declarations index roots = .ok graph) :
    WellFormed declarations index roots := by
  have hSound := TypeGraph.sound_of_build h
  obtain ⟨outlines, hDiscover, h⟩ := bind_eq_ok.1 h
  obtain ⟨_, _, h⟩ := bind_eq_ok.1 h
  obtain ⟨_, hReferences, _⟩ := bind_eq_ok.1 h
  have hFound := TypeGraph.discovered_of_discover hDiscover
  refine ⟨?declared, ?represented, fun name => hSound.acyclic, ?leads⟩
  case declared =>
    intro name hContained
    obtain ⟨outline, hOutline, rfl⟩ := hFound.exists_outline hContained
    obtain ⟨declaration, hGet, _⟩ := hFound.declared outline hOutline
    exact ⟨declaration, hGet⟩
  case represented =>
    intro owner declaration field hField
    obtain ⟨outline, hOutline, rfl⟩ := hFound.exists_outline hField.contained
    exact (of_mem_discover hDiscover hOutline).2 declaration field hField
  case leads =>
    intro owner declaration field hField directive hDirective
    obtain ⟨outline, hOutline, rfl⟩ := hFound.exists_outline hField.contained
    obtain ⟨same, hSame, _, hMembers⟩ := hFound.declared outline hOutline
    obtain rfl := Option.some.inj (hField.declared.symm.trans hSame)
    have hMember : Member.annotated index outline.name field ∈ outline.members := by
      rw [hMembers]
      exact List.mem_map_of_mem hField.mem
    have hMembersOk := forM_eq_ok.1 hReferences _ (List.mem_map_of_mem hOutline)
    have hMemberOk := forM_eq_ok.1 hMembersOk _ hMember
    have hCheck := forM_eq_ok.1 hMemberOk directive hDirective
    exact hFound.leads_of_checkReference hOutline hSame hCheck

/-- **Accepted inputs, exactly**: a graph can be built exactly of what is well-formed, and the
error that is given otherwise is true. -/
theorem build_accepts_exactly_wellFormed (declarations : Declarations) (index : DirectiveIndex)
    (roots : List String) :
    ((∃ graph, TypeGraph.build declarations index roots = .ok graph) ↔
        WellFormed declarations index roots) ∧
      ∀ e, TypeGraph.build declarations index roots = .error e →
        e.TrueOf declarations index roots := by
  refine ⟨⟨fun ⟨graph, hBuild⟩ => .of_build hBuild, fun hWell => ?_⟩, TypeGraph.failsOnly_build⟩
  cases hBuild : TypeGraph.build declarations index roots with
  | ok graph => exact ⟨graph, rfl⟩
  | error e => exact absurd hWell (TypeGraph.failsOnly_build e hBuild).not_wellFormed

end

namespace Sample

/-- A list that has the rest of itself for a member. -/
def loop : Declarations :=
  Table.ofList [("chreTestList", ⟨.struct, [⟨"rest", ⟨"struct chreTestList", .plain⟩⟩]⟩)]

/-- The outline of the list. -/
def loopOutline : Outline :=
  ⟨"chreTestList", .struct, [⟨"rest", ⟨"struct chreTestList", .plain⟩, []⟩]⟩

/-- The search for an order meets the list inside of itself. -/
theorem build_loop :
    TypeGraph.build loop .empty ["chreTestList"] =
      .error (.dependencyCycle ["chreTestList", "chreTestList"]) := by
  have hDiscover : discover loop .empty ["chreTestList"] = .ok [loopOutline] := by
    have hFound : (discovery loop .empty).collectWithin 3 [] ["chreTestList"] =
        some [("chreTestList", loopOutline)] := by decide +kernel
    have hCollect := Worklist.collect_of_collectWithin hFound
    unfold discover Worklist.run
    rw [show ["chreTestList"].reverse = ["chreTestList"] from rfl, hCollect]
    rfl
  let graph := TypeGraph.linkInOrder [loopOutline] ["chreTestList"]
  have hEntry : graph.get? 0 = some ⟨loopOutline, [0], [0], false⟩ := by decide +kernel
  have hSearch : graph.depthFirst [] [] graph.ids = .error [0, 0] := by
    show graph.depthFirst [] [] [0] = _
    rw [TypeGraph.depthFirst_of_get? (by simp) (by simp) hEntry,
      TypeGraph.depthFirst_of_mem_path (by simp)]
    rfl
  unfold TypeGraph.build TypeGraph.checkAcyclic
  rw [hDiscover]
  show (TypeGraph.link [loopOutline] ["chreTestList"] |>.depthFirst [] [] _ |>.mapError _) >>= _ = _
  rw [TypeGraph.link_of_sorted (List.pairwise_singleton _ _), hSearch]
  rfl

/-- The list is not well-formed, and the cycle that is reported is one. -/
theorem loop_contains_itself :
    ¬ WellFormed loop .empty ["chreTestList"] ∧
      (CompileError.dependencyCycle ["chreTestList", "chreTestList"]).TrueOf loop .empty
        ["chreTestList"] := by
  obtain ⟨hAccepted, hTrue⟩ := build_accepts_exactly_wellFormed loop .empty ["chreTestList"]
  refine ⟨fun hWell => ?_, hTrue _ build_loop⟩
  obtain ⟨graph, hBuild⟩ := hAccepted.2 hWell
  rw [build_loop] at hBuild
  cases hBuild

end Sample

end WireSchema
