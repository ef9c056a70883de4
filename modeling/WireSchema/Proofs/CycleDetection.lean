import Mathlib.Algebra.BigOperators.Fin
import Mathlib.Algebra.Order.BigOperators.Group.Finset
import WireSchema.Proofs.AcceptedInputs

/-!
# Detecting cycles with marks

A search for cycles can do without recursion.  It marks the types it is inside of and those it
is through with, and keeps a stack of frames: a type, and the index of the dependency that it
has to look at next.  `ColouredSearch` is its state and `TypeGraph.advance` a step.  A step
looks at one dependency, or is through with a type, or goes on to the next type to start from.

The steps are those of the recursive search `depthFirst`.  `TypeGraph.resume` is what that
search has still to do where a stack stands.  No step changes it, as long as the marks say
what is on the stack and what is in order (`Ongoing`).

Every step uses up an edge, a type to leave or a type to start from.  `TypeGraph.cost` counts
what is left of them.

## Main results

* `after_verdictFrom`: the search ends within as many steps as its state costs.
* `Ongoing.moves`, `Ongoing.resume_moves`, `Ongoing.ends`: what a step preserves, and what the
  last one says.
* `answer?_detect`: the marks find what the recursive search finds.
* `exists_checkAcyclic_iff`: an order exists exactly in an acyclic graph.
* `detection_is_exact`: all of this, for the search from its start.
-/

namespace WireSchema.TypeGraph

/-! ## The search with marks -/

/-- How far the search is with a type. -/
inductive Mark where
  | unvisited
  | onStack
  | done
  deriving DecidableEq, Repr

/-- A type that the search is inside of, and the index of the dependency to look at next. -/
structure SearchFrame where
  id : TypeId
  next : Nat
  deriving DecidableEq, Repr

/-- The state of the search. -/
structure ColouredSearch where
  /-- One mark for each type. -/
  marks : List Mark
  /-- The frames, innermost first. -/
  stack : List SearchFrame
  /-- The types that the search has still to start from. -/
  starts : List TypeId
  deriving DecidableEq, Repr

/-- How the search ends. -/
inductive Verdict where
  | acyclic
  | cycle (path : List TypeId)
  /-- There is no mark for the type. -/
  | outside (id : TypeId)
  deriving DecidableEq, Repr

/-- The types on a stack, outermost first. -/
def pathOf (stack : List SearchFrame) : List TypeId :=
  (stack.map SearchFrame.id).reverse

/-- The types on the stack from `d` on, closed by `d` again; all of them, if `d` is not there. -/
def closeAt (stack : List SearchFrame) (d : TypeId) : List TypeId :=
  (pathOf stack).drop (((pathOf stack).findIdx? (· == d)).getD 0) ++ [d]

/-- The types nested directly in the type of an id. -/
def dependenciesOf (graph : TypeGraph) (id : TypeId) : List TypeId :=
  ((graph.get? id).map fun entry => entry.dependencies).getD []

/-- One step of the search, or its end. -/
def advance (graph : TypeGraph) : ColouredSearch → Except Verdict ColouredSearch
  | ⟨_, [], []⟩ => .error .acyclic
  | ⟨marks, [], start :: rest⟩ =>
    match marks[start]? with
    | none => .error (.outside start)
    | some .unvisited => .ok ⟨marks.set start .onStack, [⟨start, 0⟩], rest⟩
    | some _ => .ok ⟨marks, [], rest⟩
  | ⟨marks, ⟨id, next⟩ :: outer, starts⟩ =>
    match (graph.dependenciesOf id)[next]? with
    | none => .ok ⟨marks.set id .done, outer, starts⟩
    | some d =>
      match marks[d]? with
      | none => .error (.outside d)
      | some .unvisited =>
        .ok ⟨marks.set d .onStack, ⟨d, 0⟩ :: ⟨id, next + 1⟩ :: outer, starts⟩
      | some .onStack => .error (.cycle (closeAt (⟨id, next + 1⟩ :: outer) d))
      | some .done => .ok ⟨marks, ⟨id, next + 1⟩ :: outer, starts⟩

/-- The state after some steps, or the verdict if the search has ended by then. -/
def after (graph : TypeGraph) : Nat → ColouredSearch → Except Verdict ColouredSearch
  | 0, search => .ok search
  | steps + 1, search => graph.advance search >>= graph.after steps

/-- The state before the first step: no type is marked, and all are to start from. -/
def beginning (graph : TypeGraph) : ColouredSearch :=
  ⟨List.replicate graph.size .unvisited, [], graph.ids⟩

/-- The state before the first step of a search that starts from some types only. -/
def beginningAt (graph : TypeGraph) (starts : List TypeId) : ColouredSearch :=
  ⟨List.replicate graph.size .unvisited, [], starts⟩

/-- What the next step puts in order: the type that it is through with, if there is one. -/
def finished (graph : TypeGraph) : ColouredSearch → List TypeId
  | ⟨_, [], _⟩ => []
  | ⟨_, ⟨id, next⟩ :: _, _⟩ => if (graph.dependenciesOf id)[next]? = none then [id] else []

variable {graph : TypeGraph}

/-- What a step does, case by case. -/
inductive Moves (graph : TypeGraph) : ColouredSearch → ColouredSearch → Prop
  | enter {marks : List Mark} {start : TypeId} {rest : List TypeId} :
      marks[start]? = some .unvisited →
      Moves graph ⟨marks, [], start :: rest⟩ ⟨marks.set start .onStack, [⟨start, 0⟩], rest⟩
  | skip {marks : List Mark} {start : TypeId} {rest : List TypeId} {mark : Mark} :
      marks[start]? = some mark → mark ≠ .unvisited →
      Moves graph ⟨marks, [], start :: rest⟩ ⟨marks, [], rest⟩
  | leave {marks : List Mark} {id : TypeId} {next : Nat} {outer : List SearchFrame}
      {starts : List TypeId} :
      (graph.dependenciesOf id)[next]? = none →
      Moves graph ⟨marks, ⟨id, next⟩ :: outer, starts⟩ ⟨marks.set id .done, outer, starts⟩
  | descend {marks : List Mark} {id d : TypeId} {next : Nat} {outer : List SearchFrame}
      {starts : List TypeId} :
      (graph.dependenciesOf id)[next]? = some d → marks[d]? = some .unvisited →
      Moves graph ⟨marks, ⟨id, next⟩ :: outer, starts⟩
        ⟨marks.set d .onStack, ⟨d, 0⟩ :: ⟨id, next + 1⟩ :: outer, starts⟩
  | pass {marks : List Mark} {id d : TypeId} {next : Nat} {outer : List SearchFrame}
      {starts : List TypeId} :
      (graph.dependenciesOf id)[next]? = some d → marks[d]? = some .done →
      Moves graph ⟨marks, ⟨id, next⟩ :: outer, starts⟩ ⟨marks, ⟨id, next + 1⟩ :: outer, starts⟩

/-- When the search ends, and how. -/
inductive Ends (graph : TypeGraph) : ColouredSearch → Verdict → Prop
  | acyclic {marks : List Mark} : Ends graph ⟨marks, [], []⟩ .acyclic
  | noStart {marks : List Mark} {start : TypeId} {rest : List TypeId} :
      marks[start]? = none → Ends graph ⟨marks, [], start :: rest⟩ (.outside start)
  | noDependency {marks : List Mark} {id d : TypeId} {next : Nat} {outer : List SearchFrame}
      {starts : List TypeId} :
      (graph.dependenciesOf id)[next]? = some d → marks[d]? = none →
      Ends graph ⟨marks, ⟨id, next⟩ :: outer, starts⟩ (.outside d)
  | cycle {marks : List Mark} {id d : TypeId} {next : Nat} {outer : List SearchFrame}
      {starts : List TypeId} :
      (graph.dependenciesOf id)[next]? = some d → marks[d]? = some .onStack →
      Ends graph ⟨marks, ⟨id, next⟩ :: outer, starts⟩
        (.cycle (closeAt (⟨id, next + 1⟩ :: outer) d))

/-- What a step does is one of the cases. -/
theorem advance_cases (graph : TypeGraph) (search : ColouredSearch) :
    (∃ later, graph.advance search = .ok later ∧ graph.Moves search later) ∨
      ∃ verdict, graph.advance search = .error verdict ∧ graph.Ends search verdict := by
  obtain ⟨marks, stack, starts⟩ := search
  cases stack with
  | nil =>
      cases starts with
      | nil => exact .inr ⟨_, rfl, .acyclic⟩
      | cons start rest =>
          rw [advance]
          split
          · rename_i hMark
            exact .inr ⟨_, rfl, .noStart hMark⟩
          · rename_i hMark
            exact .inl ⟨_, rfl, .enter hMark⟩
          · rename_i mark hVisited hMark
            exact .inl ⟨_, rfl, .skip hMark hVisited⟩
  | cons frame outer =>
      obtain ⟨id, next⟩ := frame
      rw [advance]
      split
      · rename_i hEnd
        exact .inl ⟨_, rfl, .leave hEnd⟩
      · rename_i d hNext
        split
        · rename_i hMark
          exact .inr ⟨_, rfl, .noDependency hNext hMark⟩
        · rename_i hMark
          exact .inl ⟨_, rfl, .descend hNext hMark⟩
        · rename_i hMark
          exact .inr ⟨_, rfl, .cycle hNext hMark⟩
        · rename_i hMark
          exact .inl ⟨_, rfl, .pass hNext hMark⟩

theorem moves_of_advance {search later : ColouredSearch} (h : graph.advance search = .ok later) :
    graph.Moves search later := by
  rcases advance_cases graph search with ⟨same, hSame, hMoves⟩ | ⟨verdict, hEnd, _⟩
  · rw [h] at hSame
    cases hSame
    exact hMoves
  · simp [h] at hEnd

theorem ends_of_advance {search : ColouredSearch} {verdict : Verdict}
    (h : graph.advance search = .error verdict) : graph.Ends search verdict := by
  rcases advance_cases graph search with ⟨later, hOk, _⟩ | ⟨same, hSame, hEnds⟩
  · simp [h] at hOk
  · rw [h] at hSame
    cases hSame
    exact hEnds

/-! ## The search ends -/

/-- The steps that a type takes from its start: one for each dependency, and one to leave. -/
def weight (graph : TypeGraph) (id : TypeId) : Nat :=
  (graph.dependenciesOf id).length + 1

def unvisited (marks : List Mark) : Finset TypeId :=
  (Finset.range marks.length).filter fun id => marks[id]? = some .unvisited

/-- The steps that a frame takes until it is left. -/
def SearchFrame.left (graph : TypeGraph) (frame : SearchFrame) : Nat :=
  (graph.dependenciesOf frame.id).length - frame.next + 1

/-- A bound on the steps that the search can still do. -/
def cost (graph : TypeGraph) (search : ColouredSearch) : Nat :=
  (∑ id ∈ unvisited search.marks, graph.weight id) +
    (search.stack.map fun frame => frame.left graph).sum + search.starts.length

theorem mem_unvisited {marks : List Mark} {id : TypeId} :
    id ∈ unvisited marks ↔ marks[id]? = some .unvisited := by
  simp only [unvisited, Finset.mem_filter, Finset.mem_range, and_iff_right_iff_imp]
  intro h
  exact (List.getElem?_eq_some_iff.1 h).1

theorem unvisited_set {marks : List Mark} {id : TypeId} {mark : Mark} (h : mark ≠ .unvisited) :
    unvisited (marks.set id mark) = (unvisited marks).erase id := by
  ext other
  rw [Finset.mem_erase, mem_unvisited, mem_unvisited, List.getElem?_set]
  by_cases hSame : id = other
  · rw [if_pos hSame]
    split <;> simp [h, hSame]
  · simp [hSame, Ne.symm hSame]

/-- Marking a type that was unvisited takes its steps from those still to do. -/
theorem sum_unvisited_set (graph : TypeGraph) {marks : List Mark} {id : TypeId} {mark : Mark}
    (hMark : marks[id]? = some .unvisited) (h : mark ≠ .unvisited) :
    graph.weight id + ∑ other ∈ unvisited (marks.set id mark), graph.weight other =
      ∑ other ∈ unvisited marks, graph.weight other := by
  rw [unvisited_set h]
  exact Finset.add_sum_erase _ _ (mem_unvisited.2 hMark)

theorem sum_unvisited_set_le (graph : TypeGraph) (marks : List Mark) (id : TypeId) {mark : Mark}
    (h : mark ≠ .unvisited) :
    ∑ other ∈ unvisited (marks.set id mark), graph.weight other ≤
      ∑ other ∈ unvisited marks, graph.weight other := by
  rw [unvisited_set h]
  exact Finset.sum_le_sum_of_subset (Finset.erase_subset _ _)

/-- Looking at a dependency is one step less to do in the frame. -/
theorem left_next {id d : TypeId} {next : Nat} (h : (graph.dependenciesOf id)[next]? = some d) :
    SearchFrame.left graph ⟨id, next + 1⟩ + 1 = SearchFrame.left graph ⟨id, next⟩ := by
  have hLt := (List.getElem?_eq_some_iff.1 h).1
  simp only [SearchFrame.left]
  omega

/-- Every step brings the end nearer. -/
theorem Moves.cost_lt {search later : ColouredSearch} (h : graph.Moves search later) :
    graph.cost later < graph.cost search := by
  cases h with
  | enter hMark =>
      have hSum := sum_unvisited_set graph hMark (show Mark.onStack ≠ .unvisited by simp)
      simp only [cost, SearchFrame.left, weight, List.map_cons, List.map_nil, List.sum_cons,
        List.sum_nil, List.length_cons, Nat.sub_zero] at hSum ⊢
      omega
  | skip hMark hVisited =>
      simp only [cost, List.length_cons]
      omega
  | @leave marks id next outer starts hEnd =>
      have hSum := sum_unvisited_set_le graph marks id (show Mark.done ≠ .unvisited by simp)
      simp only [cost, SearchFrame.left, List.map_cons, List.sum_cons]
      omega
  | descend hNext hMark =>
      have hSum := sum_unvisited_set graph hMark (show Mark.onStack ≠ .unvisited by simp)
      have hLeft := left_next hNext
      simp only [cost, SearchFrame.left, weight, List.map_cons, List.sum_cons,
        Nat.sub_zero] at hSum hLeft ⊢
      omega
  | pass hNext hMark =>
      have hLeft := left_next hNext
      simp only [cost, List.map_cons, List.sum_cons]
      omega

/-- The verdict on where the search stands. -/
def verdictFrom (graph : TypeGraph) (search : ColouredSearch) : Verdict :=
  match _h : graph.advance search with
  | .error verdict => verdict
  | .ok later => graph.verdictFrom later
termination_by graph.cost search
decreasing_by exact (moves_of_advance _h).cost_lt

/-- The verdict on the graph. -/
def detect (graph : TypeGraph) : Verdict :=
  graph.verdictFrom graph.beginning

theorem verdictFrom_of_advance_error {search : ColouredSearch} {verdict : Verdict}
    (h : graph.advance search = .error verdict) : graph.verdictFrom search = verdict := by
  rw [verdictFrom]
  split <;> simp_all

theorem verdictFrom_of_advance_ok {search later : ColouredSearch}
    (h : graph.advance search = .ok later) :
    graph.verdictFrom search = graph.verdictFrom later := by
  rw [verdictFrom]
  split <;> simp_all

/-- A search that has ended within some steps has ended with its verdict. -/
theorem verdictFrom_of_after {search : ColouredSearch} {verdict : Verdict} {steps : Nat}
    (h : graph.after steps search = .error verdict) : graph.verdictFrom search = verdict := by
  induction steps generalizing search with
  | zero => cases h
  | succ steps ih =>
      rw [after] at h
      cases hStep : graph.advance search with
      | ok later =>
          rw [hStep] at h
          rw [verdictFrom_of_advance_ok hStep]
          exact ih h
      | error same =>
          rw [hStep] at h
          cases h
          exact verdictFrom_of_advance_error hStep

/-- The search ends within as many steps as its state costs, and one more for the verdict. -/
theorem after_verdictFrom (search : ColouredSearch) :
    ∃ steps ≤ graph.cost search, ∃ last, graph.after steps search = .ok last ∧
      graph.advance last = .error (graph.verdictFrom search) := by
  induction search using verdictFrom.induct graph with
  | case1 search verdict hEnd =>
      rw [verdictFrom_of_advance_error hEnd]
      exact ⟨0, Nat.zero_le _, search, rfl, hEnd⟩
  | case2 search later hStep ih =>
      obtain ⟨steps, hLe, last, hAfter, hLast⟩ := ih
      rw [verdictFrom_of_advance_ok hStep]
      refine ⟨steps + 1, hLe.trans_lt (moves_of_advance hStep).cost_lt, last, ?_, hLast⟩
      rw [after, hStep]
      exact hAfter

/-- The number of direct containments. -/
def edgeCount (graph : TypeGraph) : Nat :=
  (graph.entries.map fun entry => entry.dependencies.length).sum

theorem cost_beginningAt (graph : TypeGraph) (starts : List TypeId) :
    graph.cost (graph.beginningAt starts) = graph.edgeCount + graph.size + starts.length := by
  have hAll : unvisited (List.replicate graph.size Mark.unvisited) = Finset.range graph.size := by
    ext id
    rw [mem_unvisited, List.getElem?_replicate, Finset.mem_range]
    simp
  have hEdges : ∑ id ∈ Finset.range graph.size, (graph.dependenciesOf id).length =
      graph.edgeCount := by
    rw [Finset.sum_range, edgeCount, ← List.sum_ofFn]
    congr 1
    refine List.ext_getElem (by simp [size]) fun id _ hid => ?_
    rw [List.length_map] at hid
    simp [dependenciesOf, get?, List.getElem?_eq_getElem hid]
  simp only [cost, beginningAt, hAll, weight, Finset.sum_add_distrib, hEdges,
    Finset.sum_const, Finset.card_range, smul_eq_mul, mul_one, List.map_nil, List.sum_nil]
  omega

theorem cost_beginning (graph : TypeGraph) :
    graph.cost graph.beginning = graph.edgeCount + 2 * graph.size := by
  have hStarts : graph.ids.length = graph.size := List.length_range
  show graph.cost (graph.beginningAt graph.ids) = _
  rw [cost_beginningAt, hStarts]
  omega

/-! ## The same search, by recursion -/

theorem dependenciesOf_of_get? {id : TypeId} {entry : TypeEntry} (h : graph.get? id = some entry) :
    graph.dependenciesOf id = entry.dependencies := by
  rw [dependenciesOf, h]
  rfl

theorem links_iff {id d : TypeId} : graph.Links id d ↔ d ∈ graph.dependenciesOf id := by
  unfold Links
  cases hEntry : graph.get? id with
  | none => simp [dependenciesOf, hEntry]
  | some entry => simp [dependenciesOf, hEntry]

/-- The types nested in a type are types of the graph. -/
def InArena (graph : TypeGraph) : Prop :=
  ∀ entry ∈ graph.entries, ∀ d ∈ entry.dependencies, d < graph.size

theorem InArena.links_lt {id d : TypeId} (h : graph.InArena) (hLinks : graph.Links id d) :
    d < graph.size := by
  obtain ⟨entry, hEntry, hd⟩ := hLinks
  exact h entry (List.mem_of_getElem? hEntry) d hd

theorem exists_get?_of_lt {id : TypeId} (h : id < graph.size) :
    ∃ entry, graph.get? id = some entry :=
  ⟨_, List.getElem?_eq_getElem h⟩

@[simp]
theorem pathOf_cons (frame : SearchFrame) (outer : List SearchFrame) :
    pathOf (frame :: outer) = pathOf outer ++ [frame.id] := by
  simp [pathOf]

theorem mem_pathOf {stack : List SearchFrame} {id : TypeId} :
    id ∈ pathOf stack ↔ id ∈ stack.map SearchFrame.id :=
  List.mem_reverse

theorem closeAt_of_mem {stack : List SearchFrame} {d : TypeId} (h : d ∈ pathOf stack) :
    closeAt stack d = closeCycle (pathOf stack) d := by
  have hFound : ((pathOf stack).findIdx? (· == d)).getD 0 = (pathOf stack).findIdx (· == d) := by
    have hSome : ((pathOf stack).findIdx? (· == d)).isSome = true := by
      rw [List.findIdx?_isSome, List.any_eq_true]
      exact ⟨d, h, beq_self_eq_true d⟩
    obtain ⟨place, hPlace⟩ := Option.isSome_iff_exists.1 hSome
    rw [hPlace, Option.getD_some]
    exact (List.findIdx?_eq_some_iff_findIdx_eq.1 hPlace).2.symm
  rw [closeAt, closeCycle, hFound, List.dropWhile_eq_drop_findIdx_not]
  simp [bne]

theorem drop_eq_cons {id d : TypeId} {next : Nat} (h : (graph.dependenciesOf id)[next]? = some d) :
    (graph.dependenciesOf id).drop next = d :: (graph.dependenciesOf id).drop (next + 1) := by
  rw [List.drop_eq_getElem?_toList_append, h]
  rfl

/-- A type stands after those nested in it in an arranged order of all types. -/
theorem Arranged.idxOf_lt {order : List TypeId} (h : graph.Arranged order)
    (hAll : ∀ id entry, graph.get? id = some entry → id ∈ order) (hArena : graph.InArena)
    {id d : TypeId} (hLinks : graph.Links id d) : order.idxOf d < order.idxOf id := by
  obtain ⟨nested, hNested⟩ := exists_get?_of_lt (hArena.links_lt hLinks)
  obtain ⟨entry, hEntry, hd⟩ := hLinks
  exact idxOf_lt_of_arranged h hAll hEntry hd hNested

/-- What the recursive search has still to do where the stack stands, with `done` in order. -/
def resume (graph : TypeGraph) (starts : List TypeId) :
    (stack : List SearchFrame) → (done : List TypeId) → Except (List TypeId) (List TypeId)
  | [], done => graph.depthFirst [] done starts
  | frame :: outer, done =>
    graph.depthFirst (pathOf (frame :: outer)) done
        ((graph.dependenciesOf frame.id).drop frame.next) >>= fun inner =>
      graph.resume starts outer (inner ++ [frame.id])

/-- The marks say what is on the stack and what is in order. -/
structure Ongoing (graph : TypeGraph) (done : List TypeId) (search : ColouredSearch) : Prop where
  length : search.marks.length = graph.size
  starts : ∀ id ∈ search.starts, id < graph.size
  onStack : ∀ id, search.marks[id]? = some .onStack ↔ id ∈ search.stack.map SearchFrame.id
  done : ∀ id, search.marks[id]? = some .done ↔ id ∈ done
  nodup : (search.stack.map SearchFrame.id).Nodup

theorem ongoing_beginningAt {starts : List TypeId} (h : ∀ id ∈ starts, id < graph.size) :
    graph.Ongoing [] (graph.beginningAt starts) where
  length := List.length_replicate
  starts := h
  onStack := by simp [beginningAt, List.getElem?_replicate]
  done := by simp [beginningAt, List.getElem?_replicate]
  nodup := List.nodup_nil

theorem ongoing_beginning (graph : TypeGraph) : graph.Ongoing [] graph.beginning :=
  ongoing_beginningAt fun _ hid => List.mem_range.1 hid

section

variable {done : List TypeId} {search later : ColouredSearch}

theorem Ongoing.notMem_done {id : TypeId} {mark : Mark} (h : graph.Ongoing done search)
    (hMark : search.marks[id]? = some mark) (hNot : mark ≠ .done) : id ∉ done := by
  rw [← h.done id, hMark]
  simpa using hNot

theorem Ongoing.notMem_pathOf {id : TypeId} {mark : Mark} (h : graph.Ongoing done search)
    (hMark : search.marks[id]? = some mark) (hNot : mark ≠ .onStack) :
    id ∉ pathOf search.stack := by
  rw [mem_pathOf, ← h.onStack id, hMark]
  simpa using hNot

/-- A type that the search comes to goes onto the stack. -/
theorem Ongoing.push {marks : List Mark} {stack outer : List SearchFrame}
    {starts rest : List TypeId} {id : TypeId}
    (h : graph.Ongoing done ⟨marks, stack, starts⟩) (hMark : marks[id]? = some .unvisited)
    (hOuter : outer.map SearchFrame.id = stack.map SearchFrame.id) (hRest : rest ⊆ starts) :
    graph.Ongoing done ⟨marks.set id .onStack, ⟨id, 0⟩ :: outer, rest⟩ := by
  have hLt := (List.getElem?_eq_some_iff.1 hMark).1
  have hNew : id ∉ stack.map SearchFrame.id := by
    rw [← h.onStack id]
    simp [hMark]
  refine ⟨?length, ?starts, ?marked, ?ordered, ?nodup⟩
  case length => simpa using h.length
  case starts => exact fun other hOther => h.starts other (hRest hOther)
  case marked =>
    intro other
    simp only [List.getElem?_set, List.map_cons, List.mem_cons, hOuter]
    by_cases hSame : id = other
    · simp [hSame, hSame ▸ hLt]
    · simpa [hSame, Ne.symm hSame] using h.onStack other
  case ordered =>
    intro other
    simp only [List.getElem?_set]
    by_cases hSame : id = other
    · have hNot := h.done other
      rw [← hSame, hMark] at hNot
      simp_all
    · simpa [hSame] using h.done other
  case nodup =>
    rw [List.map_cons, hOuter]
    exact List.nodup_cons.2 ⟨hNew, h.nodup⟩

/-- A type whose dependencies have all been seen leaves the stack and is in order. -/
theorem Ongoing.pop {marks : List Mark} {id : TypeId} {next : Nat} {outer : List SearchFrame}
    {starts : List TypeId} (h : graph.Ongoing done ⟨marks, ⟨id, next⟩ :: outer, starts⟩) :
    graph.Ongoing (done ++ [id]) ⟨marks.set id .done, outer, starts⟩ := by
  have hOn : marks[id]? = some .onStack := (h.onStack id).2 (by simp)
  have hLt := (List.getElem?_eq_some_iff.1 hOn).1
  obtain ⟨hOff, hNodup⟩ := List.nodup_cons.1 h.nodup
  refine ⟨?length, h.starts, ?marked, ?ordered, hNodup⟩
  case length => simpa using h.length
  case marked =>
    intro other
    simp only [List.getElem?_set]
    by_cases hSame : id = other
    · subst hSame
      simpa [hLt] using hOff
    · simpa [hSame, Ne.symm hSame] using h.onStack other
  case ordered =>
    intro other
    simp only [List.getElem?_set]
    by_cases hSame : id = other
    · simp [hSame, hSame ▸ hLt]
    · simpa [hSame, Ne.symm hSame] using h.done other

/-- A step keeps to the marks. -/
theorem Ongoing.moves (h : graph.Ongoing done search) (hMoves : graph.Moves search later) :
    graph.Ongoing (done ++ graph.finished search) later := by
  cases hMoves with
  | enter hMark =>
      rw [finished, List.append_nil]
      exact h.push hMark rfl (List.subset_cons_self _ _)
  | skip =>
      rw [finished, List.append_nil]
      exact ⟨h.length, fun id hid => h.starts id (List.mem_cons_of_mem _ hid), h.onStack, h.done,
        h.nodup⟩
  | leave hEnd =>
      rw [finished, if_pos hEnd]
      exact h.pop
  | descend hNext hMark =>
      rw [finished, if_neg (by simp [hNext]), List.append_nil]
      exact h.push hMark rfl (List.Subset.refl _)
  | pass hNext hMark =>
      rw [finished, if_neg (by simp [hNext]), List.append_nil]
      exact ⟨h.length, h.starts, h.onStack, h.done, h.nodup⟩

/-- A step leaves the recursive search as much to do. -/
theorem Ongoing.resume_moves (h : graph.Ongoing done search) (hMoves : graph.Moves search later) :
    graph.resume later.starts later.stack (done ++ graph.finished search) =
      graph.resume search.starts search.stack done := by
  cases hMoves with
  | @enter marks start rest hMark =>
      have hDone : start ∉ done := h.notMem_done hMark (by simp)
      obtain ⟨entry, hEntry⟩ := exists_get?_of_lt (h.starts start List.mem_cons_self)
      simp [finished, resume, depthFirst_of_get? List.not_mem_nil hDone hEntry,
        dependenciesOf_of_get? hEntry, pathOf]
  | @skip marks start rest mark hMark hVisited =>
      -- Nothing is on the stack, so the type is in order already.
      have hDone : start ∈ done := by
        rw [← h.done start, hMark]
        cases mark with
        | unvisited => exact absurd rfl hVisited
        | onStack => simpa using (h.onStack start).1 hMark
        | done => rfl
      simp [finished, resume, depthFirst_of_mem_done List.not_mem_nil hDone]
  | @leave marks id next outer starts hEnd =>
      have hNone : (graph.dependenciesOf id).drop next = [] :=
        List.drop_eq_nil_iff.2 (List.getElem?_eq_none_iff.1 hEnd)
      rw [finished, if_pos hEnd, resume, hNone, depthFirst_nil]
      rfl
  | @descend marks id d next outer starts hNext hMark =>
      have hDone : d ∉ done := h.notMem_done hMark (by simp)
      have hPath : d ∉ pathOf (⟨id, next⟩ :: outer) := h.notMem_pathOf hMark (by simp)
      have hLt := (List.getElem?_eq_some_iff.1 hMark).1
      obtain ⟨entry, hEntry⟩ := exists_get?_of_lt (h.length ▸ hLt)
      rw [pathOf_cons] at hPath
      rw [finished, if_neg (by simp [hNext]), List.append_nil]
      simp [resume, drop_eq_cons hNext, depthFirst_of_get? hPath hDone hEntry,
        dependenciesOf_of_get? hEntry]
  | @pass marks id d next outer starts hNext hMark =>
      have hDone : d ∈ done := (h.done d).1 hMark
      have hPath : d ∉ pathOf (⟨id, next⟩ :: outer) := h.notMem_pathOf hMark (by simp)
      rw [pathOf_cons] at hPath
      rw [finished, if_neg (by simp [hNext]), List.append_nil]
      simp [resume, drop_eq_cons hNext, depthFirst_of_mem_done hPath hDone]

theorem Ongoing.after {steps : Nat} (h : graph.Ongoing done search)
    (hAfter : graph.after steps search = .ok later) :
    ∃ added, graph.Ongoing (done ++ added) later := by
  induction steps generalizing done search with
  | zero =>
      cases hAfter
      exact ⟨[], by simpa using h⟩
  | succ steps ih =>
      rw [TypeGraph.after] at hAfter
      obtain ⟨next, hNext, hRest⟩ := bind_eq_ok.1 hAfter
      have hOngoing := h.moves (moves_of_advance hNext)
      obtain ⟨rest, hLater⟩ := ih hOngoing hRest
      exact ⟨graph.finished search ++ rest, by simpa using hLater⟩

end

/-! ## What the verdict says -/

/-- The answer that a verdict gives: nothing, or the names of a cycle as an error.  There is no
answer if a mark is missing. -/
def Verdict.answer? (graph : TypeGraph) : Verdict → Option (Except CompileError Unit)
  | .acyclic => some (.ok ())
  | .cycle path => some (.error (.dependencyCycle (path.map graph.nameOf)))
  | .outside _ => none

/-- The answer of the recursive search. -/
def answerOf (graph : TypeGraph) (result : Except (List TypeId) (List TypeId)) :
    Except CompileError Unit :=
  (result.mapError fun cycle => .dependencyCycle (cycle.map graph.nameOf)).map fun _ => ()

/-- The verdict where the search ends is what the recursive search has still to say. -/
theorem Ongoing.ends {done : List TypeId} {search : ColouredSearch} {verdict : Verdict}
    (h : graph.Ongoing done search) (hArena : graph.InArena) (hEnds : graph.Ends search verdict) :
    verdict.answer? graph =
      some (graph.answerOf (graph.resume search.starts search.stack done)) := by
  cases hEnds with
  | acyclic => simp [Verdict.answer?, answerOf, resume, Except.mapError, Except.map]
  | @noStart marks start rest hNone =>
      have hLt := h.starts start List.mem_cons_self
      rw [List.getElem?_eq_none_iff, h.length] at hNone
      exact absurd hLt (Nat.not_lt.2 hNone)
  | @noDependency marks id d next outer starts hNext hNone =>
      have hLt := hArena.links_lt (links_iff.2 (List.mem_of_getElem? hNext))
      rw [List.getElem?_eq_none_iff, h.length] at hNone
      exact absurd hLt (Nat.not_lt.2 hNone)
  | @cycle marks id d next outer starts hNext hMark =>
      have hOn : d ∈ pathOf (⟨id, next⟩ :: outer) := mem_pathOf.2 ((h.onStack d).1 hMark)
      have hClose : closeAt (⟨id, next + 1⟩ :: outer) d =
          closeCycle (pathOf (⟨id, next⟩ :: outer)) d := closeAt_of_mem hOn
      rw [Verdict.answer?, hClose, resume, drop_eq_cons hNext, depthFirst_of_mem_path hOn]
      rfl

theorem answer?_verdictFrom (hArena : graph.InArena) {done : List TypeId} {search : ColouredSearch}
    (h : graph.Ongoing done search) :
    (graph.verdictFrom search).answer? graph =
      some (graph.answerOf (graph.resume search.starts search.stack done)) := by
  induction search using verdictFrom.induct graph generalizing done with
  | case1 search verdict hEnd =>
      rw [verdictFrom_of_advance_error hEnd]
      exact h.ends hArena (ends_of_advance hEnd)
  | case2 search later hStep ih =>
      have hMoves := moves_of_advance hStep
      rw [verdictFrom_of_advance_ok hStep, ih (h.moves hMoves), h.resume_moves hMoves]

/-- The search with marks finds what the recursive search finds. -/
theorem answer?_detect (hArena : graph.InArena) :
    graph.detect.answer? graph = some (graph.checkAcyclic.map fun _ => ()) :=
  answer?_verdictFrom hArena (ongoing_beginning graph)

/-! ## Cycles and orders -/

/-- In an arranged order of all types none contains itself. -/
theorem Arranged.not_transGen {order : List TypeId} (h : graph.Arranged order)
    (hAll : ∀ id entry, graph.get? id = some entry → id ∈ order) (hArena : graph.InArena)
    (id : TypeId) : ¬ Relation.TransGen graph.Links id id := by
  have hEarlier : ∀ {id d}, Relation.TransGen graph.Links id d →
      order.idxOf d < order.idxOf id := by
    intro id d hPath
    induction hPath with
    | single hLinks => exact h.idxOf_lt hAll hArena hLinks
    | tail _ hLinks ih => exact (h.idxOf_lt hAll hArena hLinks).trans ih
  intro hCycle
  exact Nat.lt_irrefl _ (hEarlier hCycle)

/-- The types can be put in order exactly if none contains itself. -/
theorem exists_checkAcyclic_iff (hArena : graph.InArena) :
    (∃ order, graph.checkAcyclic = .ok order) ↔
      ∀ id, ¬ Relation.TransGen graph.Links id id := by
  constructor
  · rintro ⟨order, hOrder⟩
    obtain ⟨hArranged, hAll⟩ := arranged_of_checkAcyclic hOrder
    exact hArranged.not_transGen hAll hArena
  · intro hAcyclic
    cases hCheck : graph.checkAcyclic with
    | ok order => exact ⟨order, rfl⟩
    | error e =>
        obtain ⟨_, ⟨id, rest, rfl, _, hChain⟩, _⟩ := exists_isCycle_of_checkAcyclic hCheck
        exact absurd (transGen_of_isChain hChain) (hAcyclic id)

/-- Names of types each of which has the next nested in it directly.  The first type is the
last again, and no other is there twice. -/
structure NamesCycle (graph : TypeGraph) (path : List String) : Prop where
  two_le_length : 2 ≤ path.length
  closed : path.head? = path.getLast?
  types : ∃ ids : List TypeId, path = ids.map graph.nameOf ∧ (∀ id ∈ ids, id < graph.size) ∧
    ids.head? = ids.getLast? ∧ ids.dropLast.Nodup ∧ ids.IsChain graph.Links
  distinct : (graph.entries.map fun entry => entry.name).Nodup → path.dropLast.Nodup

theorem nameOf_inj (hNames : (graph.entries.map fun entry => entry.name).Nodup) {id other : TypeId}
    (hid : id < graph.size) (hOther : other < graph.size)
    (h : graph.nameOf id = graph.nameOf other) : id = other := by
  have hName : ∀ {id}, id < graph.size →
      (graph.entries.map fun entry => entry.name)[id]? = some (graph.nameOf id) := by
    intro id hid
    obtain ⟨entry, hEntry⟩ := exists_get?_of_lt hid
    rw [List.getElem?_map, nameOf, hEntry]
    exact congrArg _ hEntry
  refine (List.getElem?_inj ?_ hNames).1 ?_
  · rwa [List.length_map]
  · rw [hName hid, hName hOther, h]

theorem IsCycle.namesCycle {cycle : List TypeId} (h : graph.IsCycle cycle) :
    graph.NamesCycle (cycle.map graph.nameOf) := by
  have hSize : ∀ id ∈ cycle, id < graph.size := by
    intro id hid
    obtain ⟨entry, hEntry⟩ := h.valid id hid
    exact (List.getElem?_eq_some_iff.1 hEntry).1
  obtain ⟨id, rest, rfl, hNodup, hChain⟩ := h
  refine ⟨by simp, ?_, ⟨_, rfl, hSize, List.getLast?_concat.symm, ?_, hChain⟩,
    fun hNames => ?_⟩
  · rw [List.map_append, List.map_singleton, List.getLast?_concat]
    rfl
  · rwa [List.dropLast_concat]
  · rw [List.map_append, List.map_singleton, List.dropLast_concat]
    exact hNodup.map_on fun a ha b hb => nameOf_inj hNames
      (hSize a (List.mem_append_left _ ha)) (hSize b (List.mem_append_left _ hb))

/-- **Exact detection**: if all dependencies are types of the graph, the search with marks ends
within as many steps as there are containments and twice as many as there are types.  It finds
nothing exactly if no type contains itself.  Otherwise it names the types of a cycle.  It
answers as the recursive search does, and a type marked as on the stack is always found
there. -/
theorem detection_is_exact (hArena : graph.InArena) :
    (∃ steps ≤ graph.edgeCount + 2 * graph.size, ∃ last,
        graph.after steps graph.beginning = .ok last ∧
        graph.advance last = .error graph.detect) ∧
      (graph.detect.answer? graph = some (.ok ()) ↔
        ∀ id, ¬ Relation.TransGen graph.Links id id) ∧
      (graph.detect.answer? graph ≠ some (.ok ()) → ∃ path,
        graph.detect.answer? graph = some (.error (.dependencyCycle path)) ∧
        graph.NamesCycle path) ∧
      graph.detect.answer? graph = some (graph.checkAcyclic.map fun _ => ()) ∧
      ∀ steps search d, graph.after steps graph.beginning = .ok search →
        search.marks[d]? = some .onStack →
        ((pathOf search.stack).findIdx? (· == d)).isSome = true := by
  refine ⟨?terminates, ?exact, ?reports, answer?_detect hArena, ?found⟩
  case terminates =>
    rw [← cost_beginning]
    exact after_verdictFrom graph.beginning
  case exact =>
    rw [answer?_detect hArena, ← exists_checkAcyclic_iff hArena, Option.some_inj, map_eq_ok]
    simp
  case reports =>
    rw [answer?_detect hArena]
    intro hNot
    cases hCheck : graph.checkAcyclic with
    | ok order => simp [hCheck, Except.map] at hNot
    | error e =>
        obtain ⟨cycle, hCycle, rfl⟩ := exists_isCycle_of_checkAcyclic hCheck
        exact ⟨_, rfl, hCycle.namesCycle⟩
  case found =>
    intro steps search d hAfter hMark
    obtain ⟨done, hOngoing⟩ := (ongoing_beginning graph).after hAfter
    rw [List.findIdx?_isSome, List.any_eq_true]
    exact ⟨d, mem_pathOf.2 ((hOngoing.onStack d).1 hMark), beq_self_eq_true d⟩

end WireSchema.TypeGraph

namespace WireSchema.Sample

private def ringEntry (name : String) (dependencies : List TypeId) : TypeEntry :=
  ⟨⟨name, .struct, []⟩, dependencies, [], false⟩

/-- A batch of frames, where a frame holds a packet, a packet frames, and a header nothing. -/
def ring : TypeGraph :=
  ⟨[ringEntry "Batch" [1, 3], ringEntry "Frame" [2, 3], ringEntry "Packet" [3, 1],
    ringEntry "Header" []], [0]⟩

theorem ring_is_reported :
    ring.InArena ∧ ring.detect.answer? ring =
        some (.error (.dependencyCycle ["Frame", "Packet", "Frame"])) ∧
      ¬ ∀ id, ¬ Relation.TransGen ring.Links id id := by
  have hArena : ring.InArena := by
    unfold TypeGraph.InArena
    decide
  have hAfter : ring.after 6 ring.beginning = .error (.cycle [1, 2, 1]) := by decide
  have hDetect : ring.detect = .cycle [1, 2, 1] := TypeGraph.verdictFrom_of_after hAfter
  obtain ⟨_, hExact, _⟩ := TypeGraph.detection_is_exact hArena
  rw [hDetect] at hExact ⊢
  refine ⟨hArena, by decide, fun hAcyclic => ?_⟩
  exact absurd (hExact.2 hAcyclic) (by decide)

end WireSchema.Sample
