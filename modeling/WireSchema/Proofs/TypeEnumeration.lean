import WireSchema.Proofs.BuiltGraph

/-!
# Enumerations of the types of a graph

Types are declared and encode functions are made in two orders that start from the
same roots.  Each is an *enumeration*: it has the types that the roots contain and no
others, each once and after the types nested in it.  So the two orders have the same
types.

## Main results

* `Sound.enumeration_postOrder`: a post-order enumerates what its start contains.
* `Sound.mem_declarationOrder_iff`: the two orders have the same types.
-/

namespace WireSchema.TypeGraph

variable {declarations : Declarations} {index : DirectiveIndex} {roots : List String}
  {graph : TypeGraph}

/-- The types that `starts` contain, each once and after those nested in it. -/
structure Enumeration (graph : TypeGraph) (starts : List TypeId) (types : List TypeEntry) :
    Prop where
  nodup_names : (types.map fun entry => entry.name).Nodup
  mem_entries : ∀ entry ∈ types, entry ∈ graph.entries
  nested_before : ∀ before entry after, types = before ++ entry :: after →
    ∀ nested ∈ graph.entries, nested.name ∈ entry.nestedNames → nested ∈ before
  starts_mem : ∀ id ∈ starts, ∀ entry, graph.get? id = some entry → entry ∈ types
  only : ∀ included : TypeEntry → Prop,
    (∀ entry ∈ graph.entries, included entry → ∀ nested ∈ graph.entries,
      nested.name ∈ entry.nestedNames → included nested) →
    (∀ id ∈ starts, ∀ entry, graph.get? id = some entry → included entry) →
    ∀ entry ∈ types, included entry

theorem mem_entriesOf {ids : List TypeId} {entry : TypeEntry} :
    entry ∈ graph.entriesOf ids ↔ ∃ id ∈ ids, graph.get? id = some entry :=
  List.mem_filterMap

theorem entriesOf_subset {ids : List TypeId} : graph.entriesOf ids ⊆ graph.entries := by
  intro entry hEntry
  obtain ⟨id, _, hid⟩ := mem_entriesOf.1 hEntry
  exact mem_entries_iff.2 ⟨id, hid⟩

theorem Sound.find?_eq_some (h : graph.Sound declarations index roots) {name : String}
    {entry : TypeEntry} :
    graph.find? name = some entry ↔ entry ∈ graph.entries ∧ entry.name = name :=
  find?_name_eq_some h.nodup_names

theorem Sound.eq_of_name_eq (h : graph.Sound declarations index roots) {entry other : TypeEntry}
    (hEntry : entry ∈ graph.entries) (hOther : other ∈ graph.entries)
    (hName : entry.name = other.name) : entry = other := by
  have hFind := h.find?_eq_some.2 ⟨hEntry, hName⟩
  rw [h.find?_eq_some.2 ⟨hOther, rfl⟩] at hFind
  exact (Option.some.inj hFind).symm

/-- Two places of a sound graph with types of one name are the same place. -/
theorem Sound.id_inj (h : graph.Sound declarations index roots) {i j : TypeId}
    {entry other : TypeEntry} (hi : graph.get? i = some entry) (hj : graph.get? j = some other)
    (hName : entry.name = other.name) : i = j := by
  have hLt : i < (graph.entries.map fun entry => entry.name).length := by
    rw [List.length_map]
    exact (List.getElem?_eq_some_iff.1 hi).1
  refine (List.getElem?_inj hLt h.nodup_names).1 ?_
  rw [List.getElem?_map, List.getElem?_map]
  show (graph.get? i).map _ = (graph.get? j).map _
  rw [hi, hj]
  exact congrArg some hName

theorem Sound.nodup_names_entriesOf (h : graph.Sound declarations index roots)
    {ids : List TypeId} (hids : ids.Nodup) :
    ((graph.entriesOf ids).map fun entry => entry.name).Nodup := by
  unfold entriesOf
  rw [List.map_filterMap]
  refine hids.filterMap fun i j name hi hj => ?_
  obtain ⟨entry, hEntry, rfl⟩ := Option.map_eq_some_iff.1 (Option.mem_def.1 hi)
  obtain ⟨other, hOther, hName⟩ := Option.map_eq_some_iff.1 (Option.mem_def.1 hj)
  exact h.id_inj hEntry hOther hName.symm

/-- A post-order of a sound graph is an enumeration. -/
theorem Sound.enumeration_postOrder (h : graph.Sound declarations index roots)
    (starts : List TypeId) :
    graph.Enumeration starts (graph.entriesOf (graph.postOrder starts)) := by
  obtain ⟨all, hAll, hEvery⟩ := h.arranged
  obtain ⟨order, hSearch⟩ := exists_depthFirst_ok hAll hEvery starts
  have hOrder : graph.postOrder starts = order := by
    unfold postOrder
    rw [hSearch]
  rw [hOrder]
  obtain ⟨hArranged, hStarts, added, hAdded, _, hOnly⟩ := depthFirst_ok hSearch .nil
  rw [List.nil_append] at hAdded
  refine ⟨h.nodup_names_entriesOf hArranged.nodup, ?_, ?_, ?_, ?_⟩
  · exact fun _ hEntry => entriesOf_subset hEntry
  · intro before entry after hSplit nested hNested hName
    obtain ⟨ids, tail, hIds, rfl, hTail⟩ := List.filterMap_eq_append_iff.1 hSplit
    obtain ⟨skipped, id, rest, rfl, hSkipped, hid, _⟩ := List.filterMap_eq_cons_iff.1 hTail
    have hEmpty : skipped = [] := by
      refine List.eq_nil_iff_forall_not_mem.2 fun x hx => ?_
      obtain ⟨other, hOther⟩ := hArranged.valid x (by rw [hIds]; simp [hx])
      rw [hSkipped x hx] at hOther
      cases hOther
    subst hEmpty
    obtain ⟨d, hd⟩ := mem_entries_iff.1 hNested
    have hDep := (h.mem_dependencies entry (mem_entries_iff.2 ⟨id, hid⟩) d nested hd).2 hName
    rcases hArranged.mem_before hIds hid hDep with hBefore | hNone
    · exact mem_entriesOf.2 ⟨d, hBefore, hd⟩
    · rw [hd] at hNone
      cases hNone
  · intro id hid entry hEntry
    rcases hStarts id hid with hMem | hNone
    · exact mem_entriesOf.2 ⟨id, hMem, hEntry⟩
    · rw [hEntry] at hNone
      cases hNone
  · intro included hClosed hIncluded entry hEntry
    obtain ⟨id, hid, hGet⟩ := mem_entriesOf.1 hEntry
    refine hOnly (fun id => ∀ entry, graph.get? id = some entry → included entry) ?_ hIncluded id
      (hAdded ▸ hid) entry hGet
    intro container found hContainer hFound d hd nested hNested
    have hMem := mem_entries_iff.2 ⟨container, hFound⟩
    exact hClosed found hMem (hContainer found hFound) nested (mem_entries_iff.2 ⟨d, hNested⟩)
      ((h.mem_dependencies found hMem d nested hNested).1 hd)

/-- A type of an enumeration has the types nested in it in the enumeration too. -/
theorem Enumeration.nested_mem {starts : List TypeId} {types : List TypeEntry}
    (h : graph.Enumeration starts types) {entry nested : TypeEntry} (hEntry : entry ∈ types)
    (hNested : nested ∈ graph.entries) (hName : nested.name ∈ entry.nestedNames) :
    nested ∈ types := by
  obtain ⟨before, after, rfl⟩ := List.append_of_mem hEntry
  exact List.mem_append_left _ (h.nested_before before entry after rfl nested hNested hName)

/-- Enumerations from the same starting types have the same types. -/
theorem Enumeration.mem_iff {starts others : List TypeId} {types same : List TypeEntry}
    (h : graph.Enumeration starts types) (hSame : graph.Enumeration others same)
    (hStarts : ∀ id, id ∈ starts ↔ id ∈ others) (entry : TypeEntry) :
    entry ∈ types ↔ entry ∈ same := by
  constructor
  · refine h.only (· ∈ same) (fun entry _ hMem nested hNested hName => ?_) ?_ entry
    · exact hSame.nested_mem hMem hNested hName
    · exact fun id hid => hSame.starts_mem id ((hStarts id).1 hid)
  · refine hSame.only (· ∈ types) (fun entry _ hMem nested hNested hName => ?_) ?_ entry
    · exact h.nested_mem hMem hNested hName
    · exact fun id hid => h.starts_mem id ((hStarts id).2 hid)

theorem Sound.mem_declarationOrder_iff (h : graph.Sound declarations index roots)
    (entry : TypeEntry) :
    entry ∈ graph.entriesOf graph.declarationOrder ↔
      entry ∈ graph.entriesOf (graph.postOrder graph.roots) := by
  refine (h.enumeration_postOrder _).mem_iff (h.enumeration_postOrder _) (fun id => ?_) entry
  exact List.mem_mergeSort

end WireSchema.TypeGraph
