import WireSchema.Proofs.AlikeGraphs
import WireSchema.Proofs.GraphRepresentation

/-!
# Graphs of the same roots in another order

Types are numbered in the order of their discovery, and that order begins with the last root.
Two lists of the same roots give graphs with the same types in other places.  What does not
change is what an entry says of its type, and the order of its dependencies, which goes by
name.  A depth-first search over one graph can then be followed in the other, place by place:
`SamePlace` pairs the places that have the same type.

The order of the roots shows in the order of the search from them, but not in the order of
declarations, which begins with the roots by name.

## Main results

* `TypeGraph.exists_build_of_roots`: a graph can be built from both lists or from neither.
* `TypeGraph.alike_of_build`: the graphs have the same types.
* `TypeGraph.exists_depthFirst_samePlace`: a search over one graph and over the other.
* `TypeGraph.declarationOrder_alike`: the types are declared in the same order.
-/

namespace WireSchema

variable {declarations : Declarations} {index : DirectiveIndex} {roots others : List String}

theorem Declarations.contained_iff_of_roots (hRoots : ∀ name, name ∈ roots ↔ name ∈ others)
    (name : String) : declarations.Contained roots name ↔ declarations.Contained others name :=
  ⟨.mono fun root => (hRoots root).1, .mono fun root => (hRoots root).2⟩

/-- Whether an input is well-formed does not depend on the order of its roots. -/
theorem WellFormed.of_roots (hRoots : ∀ name, name ∈ roots ↔ name ∈ others)
    (h : WellFormed declarations index roots) : WellFormed declarations index others := by
  have hContained := fun name =>
    (declarations.contained_iff_of_roots hRoots name).2
  have hField : ∀ {owner declaration field}, declarations.FieldIn others owner declaration field →
      declarations.FieldIn roots owner declaration field :=
    fun hField => ⟨hContained _ hField.contained, hField.declared, hField.mem⟩
  exact
    { declared := fun name hName => h.declared name (hContained name hName)
      represented := fun _ _ _ hOther => h.represented _ _ _ (hField hOther)
      acyclic := fun name hName => h.acyclic name (hContained name hName)
      leads := fun _ _ _ hOther => h.leads _ _ _ (hField hOther) }

namespace TypeGraph

variable {graph other : TypeGraph}

/-- **Acceptance**: a graph that can be built from some roots can be built from them in any
order. -/
theorem exists_build_of_roots (hRoots : ∀ name, name ∈ roots ↔ name ∈ others)
    (h : build declarations index roots = .ok graph) :
    ∃ other, build declarations index others = .ok other := by
  have hWell := (WellFormed.of_build h).of_roots hRoots
  cases hOther : build declarations index others with
  | ok other => exact ⟨other, rfl⟩
  | error e => exact absurd hWell (failsOnly_build e hOther).not_wellFormed

/-! ## Entries -/

/-- Entries of one name say the same. -/
theorem Sound.alike (h : graph.Sound declarations index roots)
    (hOther : other.Sound declarations index others) {entry twin : TypeEntry}
    (hEntry : entry ∈ graph.entries) (hTwin : twin ∈ other.entries)
    (hName : entry.name = twin.name) : entry.Alike twin := by
  obtain ⟨declaration, hGet, hKind, hMembers⟩ := h.declared entry hEntry
  obtain ⟨same, hSame, hTwinKind, hTwinMembers⟩ := hOther.declared twin hTwin
  have hMark := h.varLen_iff_isVarLen hEntry
  rw [hName] at hGet hMembers hMark
  obtain rfl := Option.some.inj (hGet.symm.trans hSame)
  constructor
  · have hKinds : entry.kind = twin.kind := hKind.trans hTwinKind.symm
    have hAll : entry.members = twin.members := hMembers.trans hTwinMembers.symm
    obtain ⟨⟨_, _, _⟩, _, _, _⟩ := entry
    obtain ⟨⟨_, _, _⟩, _, _, _⟩ := twin
    cases hName
    cases hKinds
    cases hAll
    rfl
  · rw [Bool.eq_iff_iff, hMark, hOther.varLen_iff_isVarLen hTwin]

/-- A type of one graph is in the other. -/
theorem exists_alike_of_build (h : build declarations index roots = .ok graph)
    (hOther : build declarations index others = .ok other)
    (hRoots : ∀ name, name ∈ roots ↔ name ∈ others) {entry : TypeEntry}
    (hEntry : entry ∈ graph.entries) : ∃ twin ∈ other.entries, entry.Alike twin := by
  have hSound := sound_of_build h
  have hOtherSound := sound_of_build hOther
  have hContained := (declarations.contained_iff_of_roots hRoots _).1 (contained_of_build h hEntry)
  obtain ⟨twin, hOrder, hName⟩ := (hOtherSound.mem_names_iff entry.name).2 hContained
  have hTwin := TypeGraph.entriesOf_subset hOrder
  exact ⟨twin, hTwin, hSound.alike hOtherSound hEntry hTwin hName.symm⟩

/-- **The same types**: graphs of the same roots in any order are alike. -/
theorem alike_of_build (h : build declarations index roots = .ok graph)
    (hOther : build declarations index others = .ok other)
    (hRoots : ∀ name, name ∈ roots ↔ name ∈ others) : graph.Alike other := by
  have hSound := sound_of_build h
  have hOtherSound := sound_of_build hOther
  intro name
  cases hFind : graph.find? name with
  | none =>
      cases hTwin : other.find? name with
      | none => exact .inl ⟨rfl, rfl⟩
      | some twin =>
          obtain ⟨hMem, rfl⟩ := hOtherSound.find?_eq_some.1 hTwin
          obtain ⟨entry, hEntry, hAlike⟩ :=
            exists_alike_of_build hOther h (fun name => (hRoots name).symm) hMem
          rw [hSound.find?_eq_some.2 ⟨hEntry, hAlike.name.symm⟩] at hFind
          cases hFind
  | some entry =>
      obtain ⟨hMem, rfl⟩ := hSound.find?_eq_some.1 hFind
      obtain ⟨twin, hTwin, hAlike⟩ := exists_alike_of_build h hOther hRoots hMem
      exact .inr ⟨entry, twin, rfl, hOtherSound.find?_eq_some.2 ⟨hTwin, hAlike.name.symm⟩, hAlike⟩

/-! ## Places -/

/-- The places, each in its graph, have the same type. -/
def SamePlace (graph other : TypeGraph) (id twinId : TypeId) : Prop :=
  ∃ entry twin, graph.get? id = some entry ∧ other.get? twinId = some twin ∧ entry.Alike twin

theorem Sound.biUnique_samePlace (h : graph.Sound declarations index roots)
    (hOther : other.Sound declarations index others) :
    Relator.BiUnique (graph.SamePlace other) := by
  constructor
  · rintro i j k ⟨entry, twin, hi, hk, hAlike⟩ ⟨entry', twin', hj, hk', hAlike'⟩
    obtain rfl := Option.some.inj (hk.symm.trans hk')
    exact h.id_inj hi hj (hAlike.name.trans hAlike'.name.symm)
  · rintro k i j ⟨entry, twin, hk, hi, hAlike⟩ ⟨entry', twin', hk', hj, hAlike'⟩
    obtain rfl := Option.some.inj (hk.symm.trans hk')
    exact hOther.id_inj hi hj (hAlike.name.symm.trans hAlike'.name)

/-- Increasing lists of the same names are the same. -/
theorem eq_of_pairwise_lt {names same : List String} (h : names.Pairwise (· < ·))
    (hSame : same.Pairwise (· < ·)) (hMem : ∀ name, name ∈ names ↔ name ∈ same) : names = same := by
  have hNodup : ∀ {list : List String}, list.Pairwise (· < ·) → list.Nodup := by
    intro list hLt
    refine List.Pairwise.imp (fun {a b} hab hEq => ?_) hLt
    exact String.lt_irrefl b (hEq ▸ hab)
  refine List.Perm.eq_of_pairwise (fun a b _ _ hab hba => ?_) h hSame ?_
  · exact absurd hba (String.lt_asymm hab)
  · exact (List.perm_ext_iff_of_nodup (hNodup h) (hNodup hSame)).2 hMem

/-- Places that are listed in the order of names, with the same names, are the same. -/
theorem Sound.forall₂_samePlace (h : graph.Sound declarations index roots)
    (hOther : other.Sound declarations index others) {ids twins : List TypeId}
    (hValid : ∀ id ∈ ids, ∃ entry, graph.get? id = some entry)
    (hTwins : ∀ id ∈ twins, ∃ twin, other.get? id = some twin)
    (hSorted : ids.Pairwise fun a b => graph.nameOf a < graph.nameOf b)
    (hTwinsSorted : twins.Pairwise fun a b => other.nameOf a < other.nameOf b)
    (hNames : ∀ name, name ∈ ids.map graph.nameOf ↔ name ∈ twins.map other.nameOf) :
    List.Forall₂ (graph.SamePlace other) ids twins := by
  have hEq : ids.map graph.nameOf = twins.map other.nameOf :=
    eq_of_pairwise_lt (List.pairwise_map.2 hSorted) (List.pairwise_map.2 hTwinsSorted) hNames
  clear hSorted hTwinsSorted hNames
  induction ids generalizing twins with
  | nil =>
      obtain rfl : twins = [] := by simpa using hEq.symm
      exact .nil
  | cons id ids ih =>
      cases twins with
      | nil => cases hEq
      | cons twinId twins =>
          obtain ⟨hHead, hTail⟩ := List.cons_eq_cons.1 hEq
          obtain ⟨⟨entry, hEntry⟩, hRest⟩ := List.forall_mem_cons.1 hValid
          obtain ⟨⟨twin, hTwin⟩, hTwinsRest⟩ := List.forall_mem_cons.1 hTwins
          refine .cons ⟨entry, twin, hEntry, hTwin, ?_⟩ (ih hRest hTwinsRest hTail)
          refine h.alike hOther (mem_entries_iff.2 ⟨id, hEntry⟩) (mem_entries_iff.2 ⟨_, hTwin⟩) ?_
          simpa [nameOf, hEntry, hTwin] using hHead

/-- A built graph lists dependencies by name, and each is in the graph. -/
theorem dependencies_of_build (h : build declarations index roots = .ok graph) {entry : TypeEntry}
    (hEntry : entry ∈ graph.entries) :
    (entry.dependencies.Pairwise fun a b => graph.nameOf a < graph.nameOf b) ∧
      ∀ d ∈ entry.dependencies, ∃ nested, graph.get? d = some nested := by
  obtain ⟨outlines, order, hDiscover, _, rfl⟩ := exists_link_of_build h
  obtain ⟨id, outline, _, rfl⟩ := exists_outline_of_mem hEntry
  refine ⟨pairwise_nameOf_link (discovered_of_discover hDiscover).nodup_names _, fun d hd => ?_⟩
  obtain ⟨nested, hNested, _⟩ := (mem_dependencies_markedEntry roots).1 hd
  exact ⟨nested, hNested⟩

/-- The names of the dependencies are those that the members name. -/
theorem Sound.mem_names_dependencies (h : graph.Sound declarations index roots) {entry : TypeEntry}
    (hEntry : entry ∈ graph.entries)
    (hValid : ∀ d ∈ entry.dependencies, ∃ nested, graph.get? d = some nested) {name : String} :
    name ∈ entry.dependencies.map graph.nameOf ↔ name ∈ entry.nestedNames := by
  rw [List.mem_map]
  constructor
  · rintro ⟨d, hd, rfl⟩
    obtain ⟨nested, hNested⟩ := hValid d hd
    have hName := (h.mem_dependencies entry hEntry d nested hNested).1 hd
    simpa [nameOf, hNested] using hName
  · intro hName
    obtain ⟨nested, hNested, rfl⟩ := h.nested entry hEntry name hName
    obtain ⟨d, hd⟩ := mem_entries_iff.1 hNested
    exact ⟨d, (h.mem_dependencies entry hEntry d nested hd).2 hName, by simp [nameOf, hd]⟩

/-- The same types depend on the same types, in the same order. -/
theorem dependencies_samePlace (h : build declarations index roots = .ok graph)
    (hOther : build declarations index others = .ok other) {entry twin : TypeEntry}
    (hEntry : entry ∈ graph.entries) (hTwin : twin ∈ other.entries) (hAlike : entry.Alike twin) :
    List.Forall₂ (graph.SamePlace other) entry.dependencies twin.dependencies := by
  have hSound := sound_of_build h
  have hOtherSound := sound_of_build hOther
  obtain ⟨hSorted, hValid⟩ := dependencies_of_build h hEntry
  obtain ⟨hTwinSorted, hTwinValid⟩ := dependencies_of_build hOther hTwin
  refine hSound.forall₂_samePlace hOtherSound hValid hTwinValid hSorted hTwinSorted fun name => ?_
  rw [hSound.mem_names_dependencies hEntry hValid,
    hOtherSound.mem_names_dependencies hTwin hTwinValid, hAlike.outline]

/-! ## Searches -/

/-- **Searches**: what one graph's search puts in order from some places, the other's puts in
the same order from the same places. -/
theorem exists_depthFirst_samePlace (hUnique : Relator.BiUnique (graph.SamePlace other))
    (hDependencies : ∀ id twinId entry twin, graph.get? id = some entry →
      other.get? twinId = some twin → graph.SamePlace other id twinId →
      List.Forall₂ (graph.SamePlace other) entry.dependencies twin.dependencies)
    {path done pending order twinPath twinDone twinPending : List TypeId}
    (hPath : List.Forall₂ (graph.SamePlace other) path twinPath)
    (hDone : List.Forall₂ (graph.SamePlace other) done twinDone)
    (hPending : List.Forall₂ (graph.SamePlace other) pending twinPending)
    (h : graph.depthFirst path done pending = .ok order) :
    ∃ twinOrder, other.depthFirst twinPath twinDone twinPending = .ok twinOrder ∧
      List.Forall₂ (graph.SamePlace other) order twinOrder := by
  induction path, done, pending using depthFirst.induct graph
    generalizing order twinPath twinDone twinPending with
  | case1 path done =>
      cases hPending
      rw [depthFirst_nil] at h
      cases h
      exact ⟨twinDone, depthFirst_nil _ _, hDone⟩
  | case2 path done id rest hOn =>
      rw [depthFirst_of_mem_path hOn] at h
      cases h
  | case3 path done id rest hOff hSeen ih =>
      cases hPending with
      | cons hHead hRest =>
          rw [depthFirst_of_mem_done hOff hSeen] at h
          rw [depthFirst_of_mem_done (mt (List.rel_mem hUnique hHead hPath).2 hOff)
            ((List.rel_mem hUnique hHead hDone).1 hSeen)]
          exact ih hPath hDone hRest h
  | case4 path done id rest hOff hSeen hNone ih =>
      cases hPending with
      | cons hHead hRest =>
          obtain ⟨entry, twin, hEntry, _⟩ := hHead
          rw [hNone] at hEntry
          cases hEntry
  | case5 path done id rest hOff hSeen entry hEntry cycle hInner ih =>
      rw [depthFirst_of_get? hOff hSeen hEntry, hInner] at h
      cases h
  | case6 path done id rest hOff hSeen entry hEntry inner hInner ih ihRest =>
      cases hPending with
      | @cons _ twinId _ twinRest hHead hRest =>
          have hSame := hHead
          obtain ⟨_, twin, _, hTwin, _⟩ := hHead
          rw [depthFirst_of_get? hOff hSeen hEntry, hInner] at h
          obtain ⟨twinInner, hTwinInner, hSameInner⟩ :=
            ih (List.rel_append hPath (.cons hSame .nil)) hDone
              (hDependencies id twinId entry twin hEntry hTwin hSame) hInner
          obtain ⟨twinOrder, hOrder, hAll⟩ :=
            ihRest hPath (List.rel_append hSameInner (.cons hSame .nil)) hRest h
          refine ⟨twinOrder, ?_, hAll⟩
          rw [depthFirst_of_get? (mt (List.rel_mem hUnique hSame hPath).2 hOff)
            (mt (List.rel_mem hUnique hSame hDone).2 hSeen) hTwin, hTwinInner]
          exact hOrder

theorem forall₂_entriesOf {ids twins : List TypeId}
    (h : List.Forall₂ (graph.SamePlace other) ids twins) :
    List.Forall₂ TypeEntry.Alike (graph.entriesOf ids) (other.entriesOf twins) := by
  unfold entriesOf
  induction h with
  | nil => exact .nil
  | cons hHead _ ih =>
      obtain ⟨entry, twin, hEntry, hTwin, hAlike⟩ := hHead
      rw [List.filterMap_cons_some hEntry, List.filterMap_cons_some hTwin]
      exact .cons hAlike ih

/-! ## Orders -/

theorem pairwise_sortByName (graph : TypeGraph) (ids : List TypeId) :
    (graph.sortByName ids).Pairwise fun a b => graph.nameOf a ≤ graph.nameOf b := by
  have hSorted : (graph.sortByName ids).Pairwise fun a b =>
      decide (graph.nameOf a ≤ graph.nameOf b) := by
    refine List.pairwise_mergeSort (fun a b c hab hbc => ?_) (fun a b => ?_) ids
    · exact decide_eq_true (String.le_trans (of_decide_eq_true hab) (of_decide_eq_true hbc))
    · simpa using String.le_total (graph.nameOf a) (graph.nameOf b)
  exact hSorted.imp fun hLe => of_decide_eq_true hLe

section Roots

variable (h : graph.Sound declarations index roots)

include h

theorem Sound.valid_roots {id : TypeId} (hid : id ∈ graph.roots) :
    ∃ entry, graph.get? id = some entry := by
  obtain ⟨root, _, entry, hEntry, _⟩ := exists_right_of_mem h.root_ids hid
  exact ⟨entry, hEntry⟩

theorem Sound.mem_names_roots {name : String} :
    name ∈ graph.roots.map graph.nameOf ↔ name ∈ roots := by
  have hNames : roots = graph.roots.map graph.nameOf := by
    have hAll :=
      map_eq_of_forall₂ (f := graph.nameOf) (g := id) h.root_ids fun root name hRoot => by
        obtain ⟨entry, hEntry, rfl⟩ := hRoot
        simp [nameOf, hEntry]
    simpa using hAll
  rw [← hNames]

/-- Roots of one name are the same place. -/
theorem Sound.root_inj {id twinId : TypeId} (hid : id ∈ graph.roots) (hTwin : twinId ∈ graph.roots)
    (hName : graph.nameOf id = graph.nameOf twinId) : id = twinId := by
  obtain ⟨entry, hEntry⟩ := h.valid_roots hid
  obtain ⟨twin, hTwin⟩ := h.valid_roots hTwin
  exact h.id_inj hEntry hTwin (by simpa [nameOf, hEntry, hTwin] using hName)

/-- The roots by name, each once. -/
theorem Sound.pairwise_dedup_roots :
    (graph.sortByName graph.roots).dedup.Pairwise fun a b => graph.nameOf a < graph.nameOf b := by
  have hLe := (pairwise_sortByName graph graph.roots).sublist (List.dedup_sublist _)
  refine (hLe.and (List.nodup_dedup _)).imp_of_mem fun {a b} ha hb hab => ?_
  refine String.not_le.1 fun hGe => hab.2 ?_
  exact h.root_inj (List.mem_mergeSort.1 (List.mem_dedup.1 ha))
    (List.mem_mergeSort.1 (List.mem_dedup.1 hb)) (String.le_antisymm hab.1 hGe)

/-- A repeated root makes no difference to the order of declarations. -/
theorem Sound.depthFirst_dedup_roots :
    graph.depthFirst [] [] (graph.sortByName graph.roots).dedup = .ok graph.declarationOrder := by
  obtain ⟨all, hAll, hEvery⟩ := h.arranged
  obtain ⟨order, hSearch⟩ := exists_depthFirst_ok hAll hEvery (graph.sortByName graph.roots)
  have hOrder : graph.declarationOrder = order := by
    unfold declarationOrder postOrder
    rw [hSearch]
  rw [hOrder, depthFirst_dedup (pairwise_sortByName graph graph.roots), hSearch]
  intro a ha b hb hab hba
  exact h.root_inj (List.mem_mergeSort.1 ha) (List.mem_mergeSort.1 hb) (String.le_antisymm hab hba)

end Roots

/-- **Order of declarations**: graphs of the same roots declare the same types in the same
order. -/
theorem declarationOrder_alike (h : build declarations index roots = .ok graph)
    (hOther : build declarations index others = .ok other)
    (hRoots : ∀ name, name ∈ roots ↔ name ∈ others) :
    List.Forall₂ TypeEntry.Alike (graph.entriesOf graph.declarationOrder)
      (other.entriesOf other.declarationOrder) := by
  have hSound := sound_of_build h
  have hOtherSound := sound_of_build hOther
  have hStarts : List.Forall₂ (graph.SamePlace other) (graph.sortByName graph.roots).dedup
      (other.sortByName other.roots).dedup := by
    refine hSound.forall₂_samePlace hOtherSound (fun id hid => ?_) (fun id hid => ?_)
      hSound.pairwise_dedup_roots hOtherSound.pairwise_dedup_roots fun name => ?_
    · exact hSound.valid_roots (List.mem_mergeSort.1 (List.mem_dedup.1 hid))
    · exact hOtherSound.valid_roots (List.mem_mergeSort.1 (List.mem_dedup.1 hid))
    · have hMem : ∀ {graph : TypeGraph},
          name ∈ (graph.sortByName graph.roots).dedup.map graph.nameOf ↔
            name ∈ graph.roots.map graph.nameOf := by
        intro graph
        simp only [List.mem_map, List.mem_dedup, sortByName, List.mem_mergeSort]
      rw [hMem, hMem, hSound.mem_names_roots, hOtherSound.mem_names_roots, hRoots]
  obtain ⟨order, hOrder, hSame⟩ := exists_depthFirst_samePlace
    (hSound.biUnique_samePlace hOtherSound) (fun id twinId entry twin hEntry hTwin hPlace => by
      obtain ⟨_, _, hSameEntry, hSameTwin, hAlike⟩ := hPlace
      obtain rfl := Option.some.inj (hEntry.symm.trans hSameEntry)
      obtain rfl := Option.some.inj (hTwin.symm.trans hSameTwin)
      exact dependencies_samePlace h hOther (mem_entries_iff.2 ⟨id, hEntry⟩)
        (mem_entries_iff.2 ⟨twinId, hTwin⟩) hAlike)
    .nil .nil hStarts hSound.depthFirst_dedup_roots
  rw [hOtherSound.depthFirst_dedup_roots] at hOrder
  obtain rfl := Except.ok.inj hOrder
  exact forall₂_entriesOf hSame

/-- The types that the roots contain, in the order of one graph's search, correspond to a
rearrangement of them in the order of the other's. -/
theorem postOrder_alike (h : build declarations index roots = .ok graph)
    (hOther : build declarations index others = .ok other)
    (hRoots : ∀ name, name ∈ roots ↔ name ∈ others) :
    ∃ rearranged, rearranged.Perm (graph.entriesOf (graph.postOrder graph.roots)) ∧
      List.Forall₂ TypeEntry.Alike rearranged (other.entriesOf (other.postOrder other.roots)) := by
  have hSound := sound_of_build h
  have hOtherSound := sound_of_build hOther
  have hEnum := hSound.enumeration_postOrder graph.roots
  have hOtherEnum := hOtherSound.enumeration_postOrder other.roots
  have hTwin : ∀ twin ∈ other.entriesOf (other.postOrder other.roots),
      ∃ entry ∈ graph.entriesOf (graph.postOrder graph.roots), entry.Alike twin := by
    intro twin hTwin
    have hContained := (hOtherSound.mem_names_iff twin.name).1 ⟨twin, hTwin, rfl⟩
    obtain ⟨entry, hEntry, hName⟩ := (hSound.mem_names_iff twin.name).2
      ((declarations.contained_iff_of_roots hRoots _).2 hContained)
    exact ⟨entry, hEntry, hSound.alike hOtherSound (hEnum.mem_entries entry hEntry)
      (hOtherEnum.mem_entries twin hTwin) hName⟩
  obtain ⟨rearranged, hAll⟩ := exists_forall₂_of_right hTwin
  have hAlike : List.Forall₂ TypeEntry.Alike rearranged
      (other.entriesOf (other.postOrder other.roots)) := hAll.imp fun _ _ hBoth => hBoth.2
  refine ⟨rearranged, ?_, hAlike⟩
  have hNames : (rearranged.map fun entry => entry.name).Nodup := by
    rw [← map_eq_of_forall₂ (g := fun entry : TypeEntry => entry.name) hAlike
      fun _ _ hSame => hSame.name.symm]
    exact hOtherEnum.nodup_names
  refine (List.perm_ext_iff_of_nodup (List.Nodup.of_map _ hNames)
    (List.Nodup.of_map _ hEnum.nodup_names)).2 fun entry => ⟨fun hEntry => ?_, fun hEntry => ?_⟩
  · obtain ⟨_, _, hBoth⟩ := exists_right_of_mem hAll hEntry
    exact hBoth.1
  · have hContained := (hSound.mem_names_iff entry.name).1 ⟨entry, hEntry, rfl⟩
    obtain ⟨twin, hTwin, hName⟩ := (hOtherSound.mem_names_iff entry.name).2
      ((declarations.contained_iff_of_roots hRoots _).1 hContained)
    obtain ⟨same, hSame, hMem, hSameAlike⟩ := exists_left_of_mem hAll hTwin
    obtain rfl := hSound.eq_of_name_eq (hEnum.mem_entries entry hEntry)
      (hEnum.mem_entries same hMem) (hName.symm.trans hSameAlike.name.symm)
    exact hSame

end TypeGraph

end WireSchema
