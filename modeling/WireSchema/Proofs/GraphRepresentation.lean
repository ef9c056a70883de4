import WireSchema.Proofs.AcceptedInputs
import WireSchema.Proofs.ResolvedGraph

/-!
# What a built graph represents

A graph is a list of entries that refer to each other by their places.  Every later stage
relies on the same facts about it: which types are there, what their entries say, and that
the two kinds of links are complete, in the order of names and each other's inverse.
`TypeGraph.Represents` puts them together, for any resolver.

## Main results

* `pairwise_lt_linkables`: linking sees the types in the order of their names, and no two of
  one name.
* `BuiltFrom.represents`: a built graph represents what its roots contain.
-/

namespace WireSchema

/-- The type is a root, or a field of such a type names it. -/
inductive Resolver.Contained (resolver : Resolver) (roots : List String) : String → Prop
  | root {name : String} : name ∈ roots → Contained resolver roots name
  | nested {owner name : String} {declaration : Declaration} {field : Field} :
      Contained resolver roots owner → resolver owner = some declaration →
      field ∈ declaration.fields → field.type.aggregateName? = some name →
      Contained resolver roots name

/-- What a table says that roots contain is what they contain for a resolver that says more. -/
theorem Resolver.Contained.of_table {resolver : Resolver} {declarations : Declarations}
    {roots : List String} {name : String}
    (hTable : ∀ name declaration, declarations.get? name = some declaration →
      resolver name = some declaration)
    (h : declarations.Contained roots name) : Resolver.Contained resolver roots name := by
  induction h with
  | root hMem => exact .root hMem
  | nested _ hGet hField hName ih => exact .nested ih (hTable _ _ hGet) hField hName

namespace TypeGraph

/-- The graph is the closure of the roots, with its links. -/
structure Represents (resolver : Resolver) (index : DirectiveIndex) (roots : List String)
    (graph : TypeGraph) : Prop where
  nodup_names : (graph.entries.map fun entry => entry.name).Nodup
  /-- The types are the roots and what their fields name, at any depth. -/
  name_iff : ∀ name, (∃ entry ∈ graph.entries, entry.name = name) ↔
    Resolver.Contained resolver roots name
  /-- A look-up gives the place of the entry that has the name. -/
  idOf?_iff : ∀ name id, graph.idOf? name = some id ↔
    ∃ entry, graph.get? id = some entry ∧ entry.name = name
  /-- An entry has the kind and the fields of its declaration, with their directives. -/
  declared : ∀ entry ∈ graph.entries, ∃ declaration, resolver entry.name = some declaration ∧
    entry.kind = declaration.kind ∧ entry.members = declaration.members index entry.name
  dependencies_sorted : ∀ entry ∈ graph.entries,
    entry.dependencies.Pairwise fun a b => graph.nameOf a < graph.nameOf b
  dependencies_iff : ∀ entry ∈ graph.entries, ∀ d, d ∈ entry.dependencies ↔
    ∃ nested, graph.get? d = some nested ∧ ∃ member ∈ entry.members,
      member.nested? = some nested.name
  /-- No type that a member names is missing from the dependencies. -/
  dependencies_complete : ∀ entry ∈ graph.entries, ∀ member ∈ entry.members, ∀ name,
    member.nested? = some name → ∃ d ∈ entry.dependencies, graph.nameOf d = name
  appearsIn_sorted : ∀ entry ∈ graph.entries,
    entry.appearsIn.Pairwise fun a b => graph.nameOf a < graph.nameOf b
  appearsIn_iff : ∀ d nested, graph.get? d = some nested → ∀ t, t ∈ nested.appearsIn ↔
    ∃ entry, graph.get? t = some entry ∧ d ∈ entry.dependencies
  /-- Every root has its id, in the order of the request. -/
  roots_eq : graph.roots.map some = roots.map graph.idOf?

/-! ## Links in the order of names -/

section Links

variable {outlines : List Outline} {roots : List String} {ids : List TypeId}

/-- Linking sees the types in the order of their names. -/
theorem pairwise_lt_linkables (h : (outlines.map Outline.name).Nodup) :
    (linkables outlines).Pairwise fun a b => a.name < b.name := by
  have hSorted := pairwise_le_linkables outlines
  have hNames : ((linkables outlines).map Linkable.name).Nodup := by
    have hPerm : (linkables outlines).Perm (linkablesInOrder outlines) := List.mergeSort_perm _ _
    refine (hPerm.map _).nodup_iff.2 ?_
    rw [linkablesInOrder, List.map_map]
    rwa [← List.zipIdx_map_fst 0 outlines, List.map_map] at h
  refine (hSorted.and (List.pairwise_map.1 hNames)).imp fun {a b} hab => ?_
  exact String.not_le.1 fun hLe => hab.2 (String.le_antisymm (of_decide_eq_true hab.1) hLe)

theorem nameOf_link_of_mem {linkable : Linkable} (h : linkable ∈ linkables outlines) :
    ((link outlines roots).markVarLen ids).nameOf linkable.id = linkable.name := by
  obtain ⟨outline, hOutline, hName, _⟩ := mem_linkables.1 h
  rw [nameOf, get?_markVarLen_link.2 ⟨outline, hOutline, rfl⟩, hName]
  rfl

/-- The ids that linking lists are in the order of names. -/
theorem pairwise_nameOf_link (h : (outlines.map Outline.name).Nodup) (keep : Linkable → Bool) :
    (((linkables outlines).filter keep).map Linkable.id).Pairwise fun a b =>
      ((link outlines roots).markVarLen ids).nameOf a <
        ((link outlines roots).markVarLen ids).nameOf b := by
  refine List.pairwise_map.2 ?_
  refine ((pairwise_lt_linkables h).filter keep).imp_of_mem fun {a b} ha hb hLt => ?_
  rwa [nameOf_link_of_mem (List.mem_of_mem_filter ha),
    nameOf_link_of_mem (List.mem_of_mem_filter hb)]

/-- A type of a linked graph appears in the types that depend on it. -/
theorem mem_appearsIn_markedEntry {d t : TypeId} {outline : Outline}
    (h : outlines[d]? = some outline) :
    t ∈ (markedEntry outlines ids d outline).appearsIn ↔
      ∃ entry, ((link outlines roots).markVarLen ids).get? t = some entry ∧
        d ∈ entry.dependencies := by
  show t ∈ (linkedEntry (linkables outlines) outline).appearsIn ↔ _
  rw [mem_appearsIn_linkedEntry]
  constructor
  · rintro ⟨container, hContainer, hName⟩
    exact ⟨_, get?_markVarLen_link.2 ⟨container, hContainer, rfl⟩,
      mem_dependencies_linkedEntry.2 ⟨outline, h, hName⟩⟩
  · rintro ⟨_, hEntry, hd⟩
    obtain ⟨container, hContainer, rfl⟩ := get?_markVarLen_link.1 hEntry
    obtain ⟨same, hSame, hName⟩ := mem_dependencies_linkedEntry.1 hd
    obtain rfl := Option.some.inj (h.symm.trans hSame)
    exact ⟨container, hContainer, hName⟩

end Links

/-! ## Built graphs -/

variable {resolver : Resolver} {declarations : Declarations} {index : DirectiveIndex}
  {roots : List String} {graph : TypeGraph}

/-- A built graph is the linked graph of some outlines with distinct names, with marks. -/
theorem BuiltFrom.exists_outlines (h : BuiltFrom resolver index roots graph) :
    ∃ outlines ids, (outlines.map Outline.name).Nodup ∧
      graph = (link outlines roots).markVarLen ids := by
  obtain ⟨outlines, order, hDiscovers, hAcyclic, _, rfl⟩ := h
  exact ⟨outlines, _, hDiscovers.nodup_names (by simp), propagate_markOwn_link hAcyclic⟩

/-- The types of a graph built from a table are contained in the roots. -/
theorem contained_of_build (h : build declarations index roots = .ok graph) {entry : TypeEntry}
    (hEntry : entry ∈ graph.entries) : declarations.Contained roots entry.name := by
  obtain ⟨outlines, order, hDiscover, _, rfl⟩ := exists_link_of_build h
  obtain ⟨id, outline, hOutline, rfl⟩ := exists_outline_of_mem hEntry
  exact (of_mem_discover hDiscover (List.mem_of_getElem? hOutline)).1

/-- What the roots contain is in a sound graph. -/
theorem Sound.exists_entry_of_contained (h : graph.Sound declarations index roots)
    (hTable : ∀ name declaration, declarations.get? name = some declaration →
      resolver name = some declaration) {name : String}
    (hName : Resolver.Contained resolver roots name) :
    ∃ entry ∈ graph.entries, entry.name = name := by
  induction hName with
  | root hMem =>
      obtain ⟨id, _, entry, hEntry, hSame⟩ := exists_left_of_mem h.root_ids hMem
      exact ⟨entry, mem_entries_iff.2 ⟨id, hEntry⟩, hSame⟩
  | nested _ hOwner hField hNested ih =>
      obtain ⟨entry, hEntry, rfl⟩ := ih
      obtain ⟨declaration, hGet, _⟩ := h.declared entry hEntry
      obtain rfl := Option.some.inj ((hTable _ _ hGet).symm.trans hOwner)
      obtain ⟨nested, hMem, hSame, _⟩ := h.exists_nested hEntry hGet hField hNested
      exact ⟨nested, hMem, hSame⟩

theorem mem_nestedNames_iff {outline : Outline} {name : String} :
    name ∈ outline.nestedNames ↔ ∃ member ∈ outline.members, member.nested? = some name :=
  List.mem_filterMap

/-- **Representation**: a built graph has the types that the roots contain, each once and as
the resolver and the directives have it, and all links between them. -/
theorem BuiltFrom.represents (h : BuiltFrom resolver index roots graph) :
    graph.Represents resolver index roots := by
  obtain ⟨declarations, hTable, hBuild⟩ := h.exists_table
  have hSound := sound_of_build hBuild
  have hIds : ∀ name id, graph.idOf? name = some id ↔
      ∃ entry, graph.get? id = some entry ∧ entry.name = name :=
    fun _ _ => findIdx?_name_eq_some hSound.nodup_names
  obtain ⟨outlines, ids, hNodup, rfl⟩ := h.exists_outlines
  refine ⟨hSound.nodup_names, ?name_iff, hIds, ?declared, ?dependencies_sorted, ?dependencies_iff,
    ?dependencies_complete, ?appearsIn_sorted, ?appearsIn_iff, ?roots_eq⟩
  case name_iff =>
    intro name
    constructor
    · rintro ⟨entry, hEntry, rfl⟩
      exact .of_table hTable (contained_of_build hBuild hEntry)
    · exact hSound.exists_entry_of_contained hTable
  case declared =>
    intro entry hEntry
    obtain ⟨declaration, hGet, hSame⟩ := hSound.declared entry hEntry
    exact ⟨declaration, hTable _ _ hGet, hSame⟩
  case dependencies_sorted =>
    intro entry hEntry
    obtain ⟨id, outline, _, rfl⟩ := exists_outline_of_mem hEntry
    exact pairwise_nameOf_link hNodup _
  case dependencies_iff =>
    intro entry hEntry d
    obtain ⟨id, outline, _, rfl⟩ := exists_outline_of_mem hEntry
    simp only [mem_dependencies_markedEntry roots, mem_nestedNames_iff]
    rfl
  case dependencies_complete =>
    intro entry hEntry member hMember name hName
    obtain ⟨nested, hNested, rfl⟩ :=
      hSound.nested entry hEntry name (mem_nestedNames_iff.2 ⟨member, hMember, hName⟩)
    obtain ⟨d, hd⟩ := mem_entries_iff.1 hNested
    refine ⟨d, (hSound.mem_dependencies entry hEntry d nested hd).2
      (mem_nestedNames_iff.2 ⟨member, hMember, hName⟩), ?_⟩
    rw [nameOf, hd]
    rfl
  case appearsIn_sorted =>
    intro entry hEntry
    obtain ⟨id, outline, _, rfl⟩ := exists_outline_of_mem hEntry
    exact pairwise_nameOf_link hNodup _
  case appearsIn_iff =>
    intro d nested hd t
    obtain ⟨outline, hOutline, rfl⟩ := get?_markVarLen_link.1 hd
    exact mem_appearsIn_markedEntry hOutline
  case roots_eq =>
    rw [← List.forall₂_eq_eq_eq, List.forall₂_map_left_iff, List.forall₂_map_right_iff]
    exact hSound.root_ids.imp fun id root hRoot => ((hIds root id).2 hRoot).symm

end TypeGraph

namespace Sample

/-- The items of the diamond appear in both types that hold them. -/
theorem diamond_represents :
    TypeGraph.BuiltFrom openResolver diamondIndex ["chreTestAll"] diamondGraph ∧
      diamondGraph.Represents openResolver diamondIndex ["chreTestAll"] ∧
      (diamondGraph.get? 2).map (fun entry => entry.appearsIn) = some [1, 3] :=
  ⟨built_diamond, built_diamond.represents, by decide +kernel⟩

end Sample

end WireSchema
