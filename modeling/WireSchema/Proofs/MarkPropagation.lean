import Mathlib.Logic.Relation
import WireSchema.Proofs.BuiltGraph

/-!
# Spreading the variable-length mark

A type around a marked one has to be marked.  `TypeGraph.propagate` starts from the marks
that are there and works through a queue of marked types.  It marks the containers of the
first type on the queue and puts them at its end, except those that had been marked before.

No type is put on the queue twice, so the number of types bounds the number of steps: a step
takes one type off the queue, and every type that it puts there was unmarked until then.
`Spreading.cost` counts the types on the queue and the unmarked ones, and falls with each
step.

Building a graph decides the marks in one pass over an order of the types instead.  Both
give the same graph.

## Main results

* `Spreading.iterate_advance`: the queue runs empty within as many steps as there are types.
* `propagate_eq`, `isMarked_propagate`: only marks change, and a type is marked in the end
  exactly if a mark reaches it.
* `propagate_markOwn_link`: spreading the marks of the members is what the pass over an order
  does.
-/

namespace WireSchema.TypeGraph

variable {graph : TypeGraph}

/-! ## Single marks -/

/-- Whether there is a type of the given id, with the mark. -/
def isMarked (graph : TypeGraph) (id : TypeId) : Bool :=
  (graph.get? id).any TypeEntry.varLen

/-- The graph with the type of the given id marked as well. -/
def mark (graph : TypeGraph) (id : TypeId) : TypeGraph :=
  { graph with entries := graph.entries.modify id fun entry => { entry with varLen := true } }

/-- The marked types, in the order of the graph. -/
def markedIds (graph : TypeGraph) : List TypeId :=
  graph.ids.filter graph.isMarked

/-- The types in which the type of the given id is nested. -/
def containersOf (graph : TypeGraph) (id : TypeId) : List TypeId :=
  ((graph.get? id).map fun entry => entry.appearsIn).getD []

theorem mem_ids_iff {id : TypeId} : id ∈ graph.ids ↔ ∃ entry, graph.get? id = some entry := by
  rw [ids, List.mem_range, size, get?]
  exact ⟨fun h => ⟨_, List.getElem?_eq_getElem h⟩,
    fun ⟨entry, h⟩ => (List.getElem?_eq_some_iff.1 h).1⟩

theorem isMarked_iff {id : TypeId} :
    graph.isMarked id = true ↔ ∃ entry, graph.get? id = some entry ∧ entry.varLen = true :=
  Option.any_eq_true ..

theorem mem_markedIds_iff {id : TypeId} : id ∈ graph.markedIds ↔ graph.isMarked id = true := by
  rw [markedIds, List.mem_filter, and_iff_right_iff_imp]
  intro h
  obtain ⟨entry, hEntry, _⟩ := isMarked_iff.1 h
  exact graph.mem_ids_of_get? hEntry

theorem get?_mark {id other : TypeId} :
    (graph.mark id).get? other =
      (graph.get? other).map fun entry =>
        if id = other then { entry with varLen := true } else entry :=
  List.getElem?_modify ..

theorem isMarked_mark {id other : TypeId} :
    (graph.mark id).isMarked other = true ↔
      graph.isMarked other = true ∨ other = id ∧ other ∈ graph.ids := by
  rw [isMarked_iff, isMarked_iff, mem_ids_iff, get?_mark]
  by_cases hSame : id = other
  · simp only [Option.map_eq_some_iff, hSame, true_and]
    constructor
    · rintro ⟨_, ⟨entry, hEntry, rfl⟩, _⟩
      exact .inr ⟨entry, hEntry⟩
    · rintro (⟨entry, hEntry, _⟩ | ⟨entry, hEntry⟩) <;> exact ⟨_, ⟨entry, hEntry, rfl⟩, rfl⟩
  · simp only [if_neg hSame, Option.map_id', Ne.symm hSame, false_and, or_false]

theorem eq_of_get? {other : TypeGraph} (hEntries : ∀ id, graph.get? id = other.get? id)
    (hRoots : graph.roots = other.roots) : graph = other := by
  obtain ⟨entries, roots⟩ := graph
  obtain ⟨_, _⟩ := other
  obtain rfl : roots = _ := hRoots
  exact congrArg (TypeGraph.mk · roots) (List.ext_getElem? hEntries)

/-! ## Graphs that differ in their marks only -/

@[simp]
theorem markVarLen_markVarLen (ids others : List TypeId) :
    (graph.markVarLen ids).markVarLen others = graph.markVarLen others := by
  refine eq_of_get? (fun id => ?_) rfl
  rw [get?_markVarLen, get?_markVarLen, get?_markVarLen, Option.map_map]
  rfl

theorem markVarLen_congr {ids others : List TypeId}
    (h : ∀ id ∈ graph.ids, id ∈ ids ↔ id ∈ others) :
    graph.markVarLen ids = graph.markVarLen others := by
  refine eq_of_get? (fun id => ?_) rfl
  rw [get?_markVarLen, get?_markVarLen]
  refine Option.map_congr fun entry hEntry => ?_
  have hSame := h id (graph.mem_ids_of_get? hEntry)
  rw [← List.contains_iff_mem, ← List.contains_iff_mem, ← Bool.eq_iff_iff] at hSame
  rw [hSame]

theorem markVarLen_markedIds (graph : TypeGraph) :
    graph.markVarLen graph.markedIds = graph := by
  refine eq_of_get? (fun id => ?_) rfl
  rw [get?_markVarLen]
  cases hEntry : graph.get? id with
  | none => rfl
  | some entry =>
      have hMarked : graph.isMarked id = entry.varLen := by rw [isMarked, hEntry]; rfl
      rw [Option.map_some, Bool.eq_iff_iff.2 (List.contains_iff_mem.trans mem_markedIds_iff),
        hMarked]

theorem markVarLen_mark {id : TypeId} (ids : List TypeId) :
    (graph.mark id).markVarLen ids = graph.markVarLen ids := by
  refine eq_of_get? (fun other => ?_) rfl
  rw [get?_markVarLen, get?_markVarLen, get?_mark, Option.map_map]
  refine Option.map_congr fun entry _ => ?_
  dsimp only [Function.comp]
  split <;> rfl

theorem ids_markVarLen (ids : List TypeId) : (graph.markVarLen ids).ids = graph.ids := by
  rw [TypeGraph.ids, size, markVarLen, List.length_mapIdx]
  rfl

/-- The two graphs differ in their marks at most. -/
def SameButMarks (graph other : TypeGraph) : Prop :=
  graph.markVarLen [] = other.markVarLen []

theorem SameButMarks.ids_eq {other : TypeGraph} (h : graph.SameButMarks other) :
    graph.ids = other.ids := by
  rw [← ids_markVarLen [], h, ids_markVarLen]

theorem SameButMarks.eq_markVarLen {other : TypeGraph} (h : graph.SameButMarks other) :
    graph = other.markVarLen graph.markedIds := by
  conv_lhs => rw [← markVarLen_markedIds graph, ← markVarLen_markVarLen [], h,
    markVarLen_markVarLen]

theorem SameButMarks.containersOf_eq {other : TypeGraph} (h : graph.SameButMarks other)
    (id : TypeId) : graph.containersOf id = other.containersOf id := by
  have hEntry : ((graph.markVarLen []).get? id).map (fun entry => entry.appearsIn) =
      ((other.markVarLen []).get? id).map fun entry => entry.appearsIn := by rw [h]
  rw [get?_markVarLen, get?_markVarLen, Option.map_map, Option.map_map] at hEntry
  exact congrArg (Option.getD · []) hEntry

/-! ## Steps -/

/-- A propagation under way: the graph so far, and the marked types whose containers have not
been looked at. -/
structure Spreading where
  graph : TypeGraph
  queue : List TypeId

namespace Spreading

/-- A container is marked and put on the queue, unless it has been marked before. -/
def reach (state : Spreading) (container : TypeId) : Spreading :=
  if container ∈ state.graph.ids ∧ state.graph.isMarked container = false then
    ⟨state.graph.mark container, state.queue ++ [container]⟩
  else state

/-- The step that takes the first type off the queue. -/
def advance (state : Spreading) : Spreading :=
  match state.queue with
  | [] => state
  | id :: rest => (state.graph.containersOf id).foldl reach ⟨state.graph, rest⟩

/-- The types on the queue and the unmarked types, counted together. -/
def cost (state : Spreading) : Nat :=
  (remaining state.graph.ids state.graph.markedIds).length + state.queue.length

/-- What looking at some containers has made of a state. -/
structure Reaches (containers : List TypeId) (before after : Spreading) : Prop where
  same : after.graph.SameButMarks before.graph
  isMarked_iff : ∀ id, after.graph.isMarked id = true ↔
    before.graph.isMarked id = true ∨ id ∈ containers ∧ id ∈ before.graph.ids
  mem_queue_iff : ∀ id, id ∈ after.queue ↔
    id ∈ before.queue ∨ after.graph.isMarked id = true ∧ before.graph.isMarked id = false
  cost_le : after.cost ≤ before.cost

theorem reaches_reach (state : Spreading) (container : TypeId) :
    Reaches [container] state (state.reach container) := by
  unfold reach
  split
  · rename_i hNew
    have hMarked : ∀ id, (state.graph.mark container).isMarked id = true ↔
        state.graph.isMarked id = true ∨ id ∈ [container] ∧ id ∈ state.graph.ids := by
      intro id
      rw [isMarked_mark, List.mem_singleton]
    refine ⟨markVarLen_mark [], hMarked, fun id => ?_, ?_⟩
    · dsimp only
      rw [List.mem_append, hMarked, List.mem_singleton]
      constructor
      · rintro (hid | rfl)
        · exact .inl hid
        · exact .inr ⟨.inr ⟨rfl, hNew.1⟩, hNew.2⟩
      · rintro (hid | ⟨hid | hid, hNot⟩)
        · exact .inl hid
        · simp [hid] at hNot
        · exact .inr hid.1
    · have hIds : (state.graph.mark container).ids = state.graph.ids :=
        SameButMarks.ids_eq (markVarLen_mark [])
      have hFewer : (remaining state.graph.ids (state.graph.mark container).markedIds).length <
          (remaining state.graph.ids state.graph.markedIds).length := by
        refine length_remaining_lt hNew.1 (fun hMem => ?_) fun id => ?_
        · simp [mem_markedIds_iff.1 hMem] at hNew
        · rw [mem_markedIds_iff, mem_markedIds_iff, hMarked, List.mem_singleton]
          exact or_congr_right (and_iff_left_of_imp fun h => h ▸ hNew.1)
      simp only [cost, hIds, List.length_append, List.length_singleton]
      omega
  · rename_i hOld
    refine ⟨rfl, fun id => ?_, fun id => ?_, Nat.le_refl _⟩
    · refine (or_iff_left_of_imp ?_).symm
      rintro ⟨hid, hMem⟩
      rw [List.mem_singleton.1 hid] at hMem ⊢
      simpa [hMem] using hOld
    · refine (or_iff_left_of_imp ?_).symm
      rintro ⟨hid, hNot⟩
      simp [hid] at hNot

theorem reaches_foldl (containers : List TypeId) (state : Spreading) :
    Reaches containers state (containers.foldl reach state) := by
  induction containers generalizing state with
  | nil =>
      refine ⟨rfl, fun id => by simp, fun id => ?_, Nat.le_refl _⟩
      refine (or_iff_left_of_imp ?_).symm
      rintro ⟨hid, hNot⟩
      simp_all
  | cons container rest ih =>
      have hHead := reaches_reach state container
      have hTail := ih (state.reach container)
      have hMarked : ∀ id, ((rest.foldl reach (state.reach container)).graph.isMarked id = true ↔
          state.graph.isMarked id = true ∨ id ∈ container :: rest ∧ id ∈ state.graph.ids) := by
        intro id
        rw [hTail.isMarked_iff, hHead.isMarked_iff, hHead.same.ids_eq, List.mem_singleton,
          List.mem_cons, or_and_right, or_assoc]
      refine ⟨hTail.same.trans hHead.same, hMarked, fun id => ?_, hTail.cost_le.trans hHead.cost_le⟩
      -- What the head has marked stays marked, so it is on the queue for the same reason.
      rw [List.foldl_cons, hTail.mem_queue_iff, hHead.mem_queue_iff]
      have hKept := (hTail.isMarked_iff id).2 ∘ .inl
      have hFirst := (hHead.isMarked_iff id).2 ∘ .inl
      cases hBefore : state.graph.isMarked id <;>
        cases hAfter : (state.reach container).graph.isMarked id <;> simp_all

/-- A step with a type on the queue makes the state cheaper. -/
theorem cost_advance {state : Spreading} (h : state.queue ≠ []) :
    state.advance.cost < state.cost := by
  obtain ⟨graph, queue⟩ := state
  cases queue with
  | nil => exact absurd rfl h
  | cons id rest =>
      refine (reaches_foldl _ _).cost_le.trans_lt ?_
      simp only [cost, List.length_cons]
      omega

/-- The graph when the queue has run empty. -/
def run (state : Spreading) : TypeGraph :=
  if _h : state.queue = [] then state.graph else state.advance.run
termination_by state.cost
decreasing_by exact cost_advance _h

/-- The state before the first step: the marked types are on the queue. -/
def start (graph : TypeGraph) : Spreading :=
  ⟨graph, graph.markedIds⟩

/-- The queue runs empty within as many steps as the state costs. -/
theorem iterate_advance (state : Spreading) :
    ∃ steps ≤ state.cost, advance^[steps] state = ⟨state.run, []⟩ := by
  induction state using run.induct with
  | case1 state hEmpty =>
      refine ⟨0, Nat.zero_le _, ?_⟩
      rw [run, dif_pos hEmpty, Function.iterate_zero, id_eq, ← hEmpty]
  | case2 state hQueue ih =>
      obtain ⟨steps, hLe, hRun⟩ := ih
      refine ⟨steps + 1, hLe.trans_lt (cost_advance hQueue), ?_⟩
      rw [Function.iterate_succ_apply, hRun, run.eq_def state, dif_neg hQueue]

theorem cost_start (graph : TypeGraph) : (start graph).cost = graph.size := by
  have hCount := List.length_eq_length_filter_add (l := graph.ids) graph.isMarked
  have hUnmarked : remaining graph.ids graph.markedIds =
      graph.ids.filter fun id => !graph.isMarked id := by
    refine List.filter_congr fun id _ => ?_
    simp only [mem_markedIds_iff, Bool.not_eq_true, Bool.decide_eq_false]
  have hSize : graph.ids.length = graph.size := List.length_range
  show (remaining graph.ids graph.markedIds).length + graph.markedIds.length = graph.size
  rw [hUnmarked, ← hSize, hCount, Nat.add_comm]
  rfl

end Spreading

/-- The graph with the marks spread to all containers. -/
def propagate (graph : TypeGraph) : TypeGraph :=
  (Spreading.start graph).run

/-! ## Where marks go -/

/-- A mark on the one type goes on to the other, which contains it. -/
def SpreadsTo (graph : TypeGraph) (id container : TypeId) : Prop :=
  container ∈ graph.containersOf id ∧ container ∈ graph.ids

namespace Spreading

/-- What holds of the states of a propagation that began with the marks of `origin`. -/
structure Ongoing (origin : TypeGraph) (state : Spreading) : Prop where
  same : state.graph.SameButMarks origin
  kept : ∀ id, origin.isMarked id = true → state.graph.isMarked id = true
  reached : ∀ id, state.graph.isMarked id = true →
    ∃ source, origin.isMarked source = true ∧ Relation.ReflTransGen origin.SpreadsTo source id
  queued : ∀ id ∈ state.queue, state.graph.isMarked id = true
  passed : ∀ id, state.graph.isMarked id = true → id ∉ state.queue →
    ∀ container, origin.SpreadsTo id container → state.graph.isMarked container = true

variable {origin : TypeGraph} {state : Spreading}

theorem ongoing_start (origin : TypeGraph) : Ongoing origin (start origin) where
  same := rfl
  kept := fun _ h => h
  reached := fun id h => ⟨id, h, .refl⟩
  queued := fun _ h => mem_markedIds_iff.1 h
  passed := fun _ h hNot => absurd (mem_markedIds_iff.2 h) hNot

theorem Ongoing.advance (h : Ongoing origin state) : Ongoing origin state.advance := by
  obtain ⟨graph, queue⟩ := state
  cases queue with
  | nil => exact h
  | cons first rest =>
      have hReaches := reaches_foldl (graph.containersOf first) ⟨graph, rest⟩
      show Ongoing origin ((graph.containersOf first).foldl reach ⟨graph, rest⟩)
      generalize (graph.containersOf first).foldl reach ⟨graph, rest⟩ = after at hReaches
      have hSpreads : ∀ container, container ∈ graph.containersOf first ∧ container ∈ graph.ids ↔
          origin.SpreadsTo first container := by
        intro container
        rw [SpreadsTo, h.same.containersOf_eq, h.same.ids_eq]
      have hMarked : ∀ id, after.graph.isMarked id = true ↔
          graph.isMarked id = true ∨ origin.SpreadsTo first id :=
        fun id => (hReaches.isMarked_iff id).trans (or_congr_right (hSpreads id))
      have hFirst : graph.isMarked first = true := h.queued first List.mem_cons_self
      refine ⟨hReaches.same.trans h.same, ?kept, ?reached, ?queued, ?passed⟩
      case kept => exact fun id hid => (hMarked id).2 (.inl (h.kept id hid))
      case reached =>
        intro id hid
        rcases (hMarked id).1 hid with hOld | hNew
        · exact h.reached id hOld
        · obtain ⟨source, hSource, hPath⟩ := h.reached first hFirst
          exact ⟨source, hSource, hPath.tail hNew⟩
      case queued =>
        intro id hid
        rcases (hReaches.mem_queue_iff id).1 hid with hOld | hNew
        · exact (hMarked id).2 (.inl (h.queued id (List.mem_cons_of_mem _ hOld)))
        · exact hNew.1
      case passed =>
        intro id hid hNot container hEdge
        refine (hMarked container).2 ?_
        have hOld : graph.isMarked id = true := by
          by_contra hUnmarked
          exact hNot ((hReaches.mem_queue_iff id).2 (.inr ⟨hid, Bool.eq_false_iff.2 hUnmarked⟩))
        -- Either this step has looked at the type's containers or an earlier one has.
        by_cases hSame : id = first
        · exact .inr (hSame ▸ hEdge)
        · refine .inl (h.passed id hOld (fun hMem => ?_) container hEdge)
          exact hNot ((hReaches.mem_queue_iff id).2
            (.inl ((List.mem_cons.1 hMem).resolve_left hSame)))

theorem Ongoing.iterate (h : Ongoing origin state) (steps : Nat) :
    Ongoing origin (Spreading.advance^[steps] state) := by
  induction steps generalizing state with
  | zero => exact h
  | succ steps ih => exact ih h.advance

theorem ongoing_run (origin : TypeGraph) : Ongoing origin ⟨origin.propagate, []⟩ := by
  obtain ⟨steps, _, hRun⟩ := iterate_advance (start origin)
  exact hRun ▸ (ongoing_start origin).iterate steps

end Spreading

/-- Spreading marks changes nothing else. -/
theorem propagate_eq (graph : TypeGraph) :
    graph.propagate = graph.markVarLen graph.propagate.markedIds :=
  (Spreading.ongoing_run graph).same.eq_markVarLen

/-- A type is marked in the end exactly if a mark reaches it. -/
theorem isMarked_propagate {id : TypeId} :
    graph.propagate.isMarked id = true ↔
      ∃ source, graph.isMarked source = true ∧ Relation.ReflTransGen graph.SpreadsTo source id := by
  have hEnd := Spreading.ongoing_run graph
  constructor
  · exact hEnd.reached id
  · rintro ⟨source, hSource, hPath⟩
    induction hPath with
    | refl => exact hEnd.kept source hSource
    | tail _ hEdge ih => exact hEnd.passed _ ih List.not_mem_nil _ hEdge

/-! ## One pass over an order -/

/-- The graph with the marks that the members of each type force, before any spreads. -/
def markOwn (graph : TypeGraph) : TypeGraph :=
  { graph with
    entries := graph.entries.map fun entry => { entry with varLen := entry.hasVarLenMember } }

/-- The type has a variable-length array, or contains one that has. -/
def ReachesVarLen (graph : TypeGraph) (id : TypeId) : Prop :=
  ∃ inner entry, Relation.ReflTransGen graph.Links id inner ∧ graph.get? inner = some entry ∧
    entry.hasVarLenMember = true

theorem get?_markOwn {id : TypeId} :
    graph.markOwn.get? id =
      (graph.get? id).map fun entry => { entry with varLen := entry.hasVarLenMember } :=
  List.getElem?_map

theorem sameButMarks_markOwn : graph.markOwn.SameButMarks graph := by
  refine eq_of_get? (fun id => ?_) rfl
  rw [get?_markVarLen, get?_markVarLen, get?_markOwn, Option.map_map]
  rfl

theorem isMarked_markOwn {id : TypeId} :
    graph.markOwn.isMarked id = true ↔
      ∃ entry, graph.get? id = some entry ∧ entry.hasVarLenMember = true := by
  rw [isMarked_iff, get?_markOwn]
  simp

/-- A pass over an order marks the types that have or contain a variable-length array. -/
theorem mem_varLenIds_iff {order : List TypeId} (h : graph.Arranged order)
    (hAll : ∀ id entry, graph.get? id = some entry → id ∈ order) {id : TypeId} :
    id ∈ graph.varLenIds order ↔ graph.ReachesVarLen id := by
  obtain ⟨hOnly, hLocal⟩ := mem_varLenIds h
  constructor
  · intro hid
    -- A type nested in another stands before it, so the induction may follow the order.
    suffices hDone : ∀ done, graph.Arranged done → ∀ id ∈ done, id ∈ graph.varLenIds order →
        graph.ReachesVarLen id from hDone order h id (hOnly id hid) hid
    intro done hArranged
    induction hArranged with
    | nil => simp
    | @snoc done last entry _ _ hEntry hBefore ih =>
        intro id hMem hMarked
        rcases List.mem_append.1 hMem with hMem | hMem
        · exact ih id hMem hMarked
        · obtain rfl := List.mem_singleton.1 hMem
          rcases (hLocal id (hOnly id hMarked) entry hEntry).1 hMarked with hOwn | ⟨d, hd, hDeep⟩
          · exact ⟨id, entry, .refl, hEntry, hOwn⟩
          · obtain ⟨nested, hNested⟩ := h.valid d (hOnly d hDeep)
            have hDone : d ∈ done := (hBefore d hd).resolve_right (by simp [hNested])
            obtain ⟨inner, deepest, hPath, hDeepest⟩ := ih d hDone hDeep
            exact ⟨inner, deepest, .head ⟨entry, hEntry, hd⟩ hPath, hDeepest⟩
  · rintro ⟨inner, entry, hPath, hEntry, hOwn⟩
    induction hPath using Relation.ReflTransGen.head_induction_on with
    | refl => exact (hLocal inner (hAll inner entry hEntry) entry hEntry).2 (.inl hOwn)
    | head hLink _ ih =>
        obtain ⟨container, hContainer, hd⟩ := hLink
        exact (hLocal _ (hAll _ _ hContainer) container hContainer).2 (.inr ⟨_, hd, ih⟩)

theorem links_markVarLen {ids : List TypeId} : (graph.markVarLen ids).Links = graph.Links := by
  funext id d
  unfold Links
  rw [get?_markVarLen]
  simp

theorem reachesVarLen_markVarLen {ids : List TypeId} {id : TypeId} :
    (graph.markVarLen ids).ReachesVarLen id ↔ graph.ReachesVarLen id := by
  unfold ReachesVarLen
  rw [links_markVarLen]
  refine exists_congr fun inner => ?_
  simp only [get?_markVarLen, Option.map_eq_some_iff]
  constructor
  · rintro ⟨_, hPath, ⟨entry, hEntry, rfl⟩, hOwn⟩
    exact ⟨entry, hPath, hEntry, hOwn⟩
  · rintro ⟨entry, hPath, hEntry, hOwn⟩
    exact ⟨_, hPath, ⟨entry, hEntry, rfl⟩, hOwn⟩

theorem mem_appearsIn_linkedEntry {outlines : List Outline} {outline : Outline} {id : TypeId} :
    id ∈ (linkedEntry (linkables outlines) outline).appearsIn ↔
      ∃ container, outlines[id]? = some container ∧ outline.name ∈ container.nestedNames := by
  show id ∈ ((linkables outlines).filter _).map Linkable.id ↔ _
  simp only [List.mem_map, List.mem_filter, List.contains_iff_mem]
  constructor
  · rintro ⟨linkable, ⟨hMem, hName⟩, rfl⟩
    obtain ⟨container, hGet, _, hEq⟩ := mem_linkables.1 hMem
    exact ⟨container, hGet, hEq ▸ hName⟩
  · rintro ⟨container, hGet, hName⟩
    exact ⟨⟨id, container.name, container.nestedNames⟩,
      ⟨mem_linkables.2 ⟨container, hGet, rfl, rfl⟩, hName⟩, rfl⟩

/-- In a linked graph marks go from a type to the types it is nested in. -/
theorem spreadsTo_link_iff {outlines : List Outline} {roots : List String}
    {id container : TypeId} :
    (link outlines roots).SpreadsTo id container ↔ (link outlines roots).Links container id := by
  unfold SpreadsTo containersOf Links
  rw [get?_link, get?_link, mem_ids_iff, get?_link]
  simp only [Option.map_eq_some_iff]
  constructor
  · rintro ⟨hMem, _, outer, hOuter, rfl⟩
    cases hInner : outlines[id]? with
    | none => simp [hInner] at hMem
    | some inner =>
        rw [hInner] at hMem
        obtain ⟨same, hSame, hName⟩ := mem_appearsIn_linkedEntry.1 hMem
        obtain rfl := Option.some.inj (hOuter.symm.trans hSame)
        exact ⟨_, ⟨outer, hOuter, rfl⟩, mem_dependencies_linkedEntry.2 ⟨inner, hInner, hName⟩⟩
  · rintro ⟨_, ⟨outer, hOuter, rfl⟩, hd⟩
    obtain ⟨inner, hInner, hName⟩ := mem_dependencies_linkedEntry.1 hd
    rw [hInner]
    exact ⟨mem_appearsIn_linkedEntry.2 ⟨outer, hOuter, hName⟩, _, outer, hOuter, rfl⟩

theorem SameButMarks.spreadsTo_eq {other : TypeGraph} (h : graph.SameButMarks other) :
    graph.SpreadsTo = other.SpreadsTo := by
  funext id container
  rw [SpreadsTo, SpreadsTo, h.containersOf_eq, h.ids_eq]

/-- Spreading the marks that the members force gives the marks that a pass over an order of
the types gives. -/
theorem propagate_markOwn_link {outlines : List Outline} {roots : List String}
    {order : List TypeId} (h : (link outlines roots).checkAcyclic = .ok order) :
    (link outlines roots).markOwn.propagate =
      (link outlines roots).markVarLen ((link outlines roots).varLenIds order) := by
  obtain ⟨hArranged, hAll⟩ := arranged_of_checkAcyclic h
  have hSame : (link outlines roots).markOwn.propagate.SameButMarks (link outlines roots) :=
    (Spreading.ongoing_run _).same.trans sameButMarks_markOwn
  rw [hSame.eq_markVarLen]
  refine markVarLen_congr fun id _ => ?_
  have hSpreads : (link outlines roots).markOwn.SpreadsTo =
      Function.swap (link outlines roots).Links := by
    rw [sameButMarks_markOwn.spreadsTo_eq]
    funext inner outer
    exact propext spreadsTo_link_iff
  rw [mem_markedIds_iff, isMarked_propagate, mem_varLenIds_iff hArranged hAll, hSpreads]
  refine exists_congr fun inner => ?_
  rw [isMarked_markOwn, Relation.reflTransGen_swap, ← exists_and_right]
  exact exists_congr fun entry => by tauto

end WireSchema.TypeGraph
