import WireSchema.Proofs.TypeEnumeration

/-!
# The types that roots contain

Which types a request is about can be said of its declarations alone: the roots, and
whatever structure or union a field of such a type names.  The graph has been built by a
search and put in order by another one; both end up with exactly these types.

The variable-length mark is of the same sort.  A type is marked if it, or a type that it
contains at any depth, has a variable-length array.

## Main results

* `TypeGraph.Sound.mem_names_iff`: the types in dependency order are those the roots contain.
* `TypeGraph.Sound.varLen_iff_isVarLen`: what the mark says of the declarations.
-/

namespace WireSchema

namespace Declarations

/-- The type is a root, or a field of a contained type names it. -/
inductive Contained (declarations : Declarations) (roots : List String) : String → Prop
  | root {name : String} : name ∈ roots → Contained declarations roots name
  | nested {owner name : String} {declaration : Declaration} {field : Field} :
      Contained declarations roots owner → declarations.get? owner = some declaration →
      field ∈ declaration.fields → field.type.aggregateName? = some name →
      Contained declarations roots name

/-- The type, or one that it contains, has a variable-length array. -/
def IsVarLen (declarations : Declarations) (index : DirectiveIndex) (name : String) : Prop :=
  ∃ inner declaration, declarations.Contained [name] inner ∧
    declarations.get? inner = some declaration ∧
    ∃ member ∈ declaration.members index inner, member.lengthField? ≠ none

variable {declarations : Declarations} {index : DirectiveIndex} {roots : List String}

/-- What a contained type contains is contained. -/
theorem Contained.trans {name inner : String} (hOuter : declarations.Contained roots name)
    (hInner : declarations.Contained [name] inner) : declarations.Contained roots inner := by
  induction hInner with
  | root hMem =>
      rw [List.mem_singleton.1 hMem]
      exact hOuter
  | nested _ hGet hField hName ih => exact .nested ih hGet hField hName

/-- More roots contain more. -/
theorem Contained.mono {others : List String} {name : String}
    (hRoots : ∀ root ∈ roots, root ∈ others) (h : declarations.Contained roots name) :
    declarations.Contained others name := by
  induction h with
  | root hMem => exact .root (hRoots _ hMem)
  | nested _ hGet hField hName ih => exact .nested ih hGet hField hName

/-- A type around a variable-length one is variable-length. -/
theorem IsVarLen.of_contained {name inner : String} (h : declarations.IsVarLen index inner)
    (hContained : declarations.Contained [name] inner) : declarations.IsVarLen index name := by
  obtain ⟨deepest, declaration, hDeepest, hArray⟩ := h
  exact ⟨deepest, declaration, hContained.trans hDeepest, hArray⟩

end Declarations

namespace TypeGraph.Sound

variable {declarations : Declarations} {index : DirectiveIndex} {roots : List String}
  {graph : TypeGraph}

/-- The types nested in an entry are those that the fields of its declaration name. -/
theorem contained_of_nested (h : graph.Sound declarations index roots) {starts : List String}
    {entry : TypeEntry} (hEntry : entry ∈ graph.entries)
    (hContained : declarations.Contained starts entry.name) {name : String}
    (hName : name ∈ entry.nestedNames) : declarations.Contained starts name := by
  obtain ⟨declaration, hGet, _, hMembers⟩ := h.declared entry hEntry
  obtain ⟨member, hMember, hNested⟩ := List.mem_filterMap.1 hName
  rw [hMembers] at hMember
  obtain ⟨field, hField, rfl⟩ := List.mem_map.1 hMember
  exact .nested hContained hGet hField hNested

/-- A field that names a type nests it in the entry of its declaration. -/
theorem exists_nested (h : graph.Sound declarations index roots) {entry : TypeEntry}
    (hEntry : entry ∈ graph.entries) {declaration : Declaration}
    (hGet : declarations.get? entry.name = some declaration) {field : Field}
    (hField : field ∈ declaration.fields) {name : String}
    (hName : field.type.aggregateName? = some name) :
    ∃ nested ∈ graph.entries, nested.name = name ∧ nested.name ∈ entry.nestedNames := by
  obtain ⟨same, hSame, _, hMembers⟩ := h.declared entry hEntry
  obtain rfl : declaration = same := Option.some.inj (hGet.symm.trans hSame)
  have hMember : Member.annotated index entry.name field ∈ entry.members := by
    rw [hMembers]
    exact List.mem_map_of_mem hField
  have hNested : name ∈ entry.nestedNames := List.mem_filterMap.2 ⟨_, hMember, hName⟩
  obtain ⟨nested, hMem, rfl⟩ := h.nested entry hEntry name hNested
  exact ⟨nested, hMem, rfl, hNested⟩

/-- **Closure of the roots**: the types in dependency order are those that the roots
contain. -/
theorem mem_names_iff (h : graph.Sound declarations index roots) (name : String) :
    (∃ entry ∈ graph.entriesOf (graph.postOrder graph.roots), entry.name = name) ↔
      declarations.Contained roots name := by
  have hEnum := h.enumeration_postOrder graph.roots
  constructor
  · rintro ⟨entry, hEntry, rfl⟩
    refine hEnum.only (fun entry => declarations.Contained roots entry.name) ?_ ?_ entry hEntry
    · intro container hContainer hContained nested _ hName
      exact h.contained_of_nested hContainer hContained hName
    · intro id hid root hRoot
      obtain ⟨name, hName, found, hFound, rfl⟩ := exists_right_of_mem h.root_ids hid
      obtain rfl : root = found := Option.some.inj (hRoot.symm.trans hFound)
      exact .root hName
  · intro hContained
    induction hContained with
    | root hMem =>
        obtain ⟨id, hid, entry, hEntry, hName⟩ := exists_left_of_mem h.root_ids hMem
        exact ⟨entry, hEnum.starts_mem id hid entry hEntry, hName⟩
    | nested _ hGet hField hName ih =>
        obtain ⟨entry, hEntry, rfl⟩ := ih
        obtain ⟨nested, hMem, hSame, hNested⟩ :=
          h.exists_nested (hEnum.mem_entries entry hEntry) hGet hField hName
        exact ⟨nested, hEnum.nested_mem hEntry hMem hNested, hSame⟩

/-! ## The variable-length mark -/

/-- A member with a variable-length array marks its type. -/
theorem hasVarLenMember_iff (h : graph.Sound declarations index roots) {entry : TypeEntry}
    (hEntry : entry ∈ graph.entries) :
    entry.hasVarLenMember = true ↔
      ∃ declaration, declarations.get? entry.name = some declaration ∧
        ∃ member ∈ declaration.members index entry.name, member.lengthField? ≠ none := by
  obtain ⟨declaration, hGet, _, hMembers⟩ := h.declared entry hEntry
  rw [Outline.hasVarLenMember, List.any_eq_true, hMembers]
  constructor
  · rintro ⟨member, hMember, hArray⟩
    exact ⟨declaration, hGet, member, hMember, Option.isSome_iff_ne_none.1 hArray⟩
  · rintro ⟨same, hSame, member, hMember, hArray⟩
    obtain rfl : declaration = same := Option.some.inj (hGet.symm.trans hSame)
    exact ⟨member, hMember, Option.isSome_iff_ne_none.2 hArray⟩

/-- A type is marked if a type nested in it is. -/
theorem varLen_of_nested (h : graph.Sound declarations index roots) {entry nested : TypeEntry}
    (hEntry : entry ∈ graph.entries) (hNested : nested ∈ graph.entries)
    (hName : nested.name ∈ entry.nestedNames) (hVarLen : nested.varLen = true) :
    entry.varLen = true := by
  obtain ⟨d, hd⟩ := mem_entries_iff.1 hNested
  have hDependency := (h.mem_dependencies entry hEntry d nested hd).2 hName
  exact (h.varLen_iff entry hEntry).2 (.inr ⟨d, hDependency, nested, hd, hVarLen⟩)

/-- A marked type of an arranged order contains a variable-length array. -/
private theorem isVarLen_of_arranged (h : graph.Sound declarations index roots)
    {order : List TypeId} (hOrder : graph.Arranged order) :
    ∀ id ∈ order, ∀ entry, graph.get? id = some entry → entry.varLen = true →
      declarations.IsVarLen index entry.name := by
  induction hOrder with
  | nil => simp
  | @snoc done last _ hArranged _ hLast hDependencies ih =>
      intro id hid entry hEntry hVarLen
      rcases List.mem_append.1 hid with hid | hid
      · exact ih id hid entry hEntry hVarLen
      · have hGraph := mem_entries_iff.2 ⟨id, hEntry⟩
        rcases (h.varLen_iff entry hGraph).1 hVarLen with hOwn | ⟨d, hd, other, hOther, hMarked⟩
        · obtain ⟨declaration, hArray⟩ := (h.hasVarLenMember_iff hGraph).1 hOwn
          exact ⟨entry.name, declaration, .root (List.mem_singleton.2 rfl), hArray⟩
        · -- The nested type comes earlier in the order, where the marks are right.
          rw [List.mem_singleton.1 hid, hLast] at hEntry
          cases hEntry
          have hName := (h.mem_dependencies _ hGraph d other hOther).1 hd
          have hBefore : d ∈ done := by
            refine (hDependencies d hd).resolve_right ?_
            simp [hOther]
          refine (ih d hBefore other hOther hMarked).of_contained ?_
          exact h.contained_of_nested hGraph (.root (List.mem_singleton.2 rfl)) hName

/-- **The variable-length mark** is on the types that contain a variable-length array. -/
theorem varLen_iff_isVarLen (h : graph.Sound declarations index roots) {entry : TypeEntry}
    (hEntry : entry ∈ graph.entries) :
    entry.varLen = true ↔ declarations.IsVarLen index entry.name := by
  constructor
  · obtain ⟨order, hArranged, hAll⟩ := h.arranged
    obtain ⟨id, hid⟩ := mem_entries_iff.1 hEntry
    exact h.isVarLen_of_arranged hArranged id (hAll id entry hid) entry hid
  · rintro ⟨inner, declaration, hContained, hArray⟩
    -- Every type on the way to the array is in the graph, and its mark reaches the entry.
    have hReaches : ∃ deepest ∈ graph.entries, deepest.name = inner ∧
        (deepest.varLen = true → entry.varLen = true) := by
      clear hArray
      induction hContained with
      | root hMem => exact ⟨entry, hEntry, (List.mem_singleton.1 hMem).symm, id⟩
      | nested _ hGet hField hName ih =>
          obtain ⟨owner, hOwner, rfl, hMark⟩ := ih
          obtain ⟨nested, hNested, hSame, hMem⟩ := h.exists_nested hOwner hGet hField hName
          exact ⟨nested, hNested, hSame,
            fun hVarLen => hMark (h.varLen_of_nested hOwner hNested hMem hVarLen)⟩
    obtain ⟨deepest, hDeepest, rfl, hMark⟩ := hReaches
    have hOwn := (h.hasVarLenMember_iff hDeepest).2 ⟨declaration, hArray⟩
    exact hMark ((h.varLen_iff deepest hDeepest).2 (.inl hOwn))

end TypeGraph.Sound

end WireSchema
