import WireSchema.Proofs.CycleDetection

/-!
# Post-order with flags

The types that some roots contain can be put in order without recursion, with a stack and one
flag for each type.  The flag of a type is set when the search comes to it, not when the type
is put in order.  `FlaggedSearch` is the state of the search and `TypeGraph.proceed` a step.

A flag says less than a mark of `ColouredSearch`: not whether a type is still on the stack.  In
an acyclic graph this is no loss.  The search with marks never meets its own stack there, so
both searches do the same steps, and one of them is what the other becomes if it forgets that
difference (`ColouredSearch.flags`).

`TypeGraph.Emits` is the plain recursion: a type comes after what its dependencies emit, and
what has been emitted is skipped.

## Main results

* `Ongoing.proceed`, `Ongoing.proceedFor`: the steps of the two searches, and their runs.
* `emits_iff`: the plain recursion has one result.
* `Arranged.mem_before_of_transGen`, `mem_order_iff`: what a post-order lists, and where.
* `postOrder_is_topological`: all of this, for every acyclic graph and all roots.
-/

namespace WireSchema.TypeGraph

/-! ## The search with flags -/

/-- The state of the search. -/
structure FlaggedSearch where
  /-- For each type, whether the search has come to it. -/
  visited : List Bool
  /-- The frames, innermost first. -/
  stack : List SearchFrame
  /-- The types that the search has still to start from. -/
  starts : List TypeId
  /-- The types that are in order. -/
  order : List TypeId
  deriving DecidableEq, Repr

/-- How the search ends. -/
inductive Halt where
  | ordered (order : List TypeId)
  /-- There is no flag for the type. -/
  | outside (id : TypeId)
  deriving DecidableEq, Repr

/-- One step of the search, or its end. -/
def proceed (graph : TypeGraph) : FlaggedSearch → Except Halt FlaggedSearch
  | ⟨_, [], [], order⟩ => .error (.ordered order)
  | ⟨visited, [], start :: rest, order⟩ =>
    match visited[start]? with
    | none => .error (.outside start)
    | some true => .ok ⟨visited, [], rest, order⟩
    | some false => .ok ⟨visited.set start true, [⟨start, 0⟩], rest, order⟩
  | ⟨visited, ⟨id, next⟩ :: outer, starts, order⟩ =>
    match (graph.dependenciesOf id)[next]? with
    | none => .ok ⟨visited, outer, starts, order ++ [id]⟩
    | some d =>
      match visited[d]? with
      | none => .error (.outside d)
      | some false =>
        .ok ⟨visited.set d true, ⟨d, 0⟩ :: ⟨id, next + 1⟩ :: outer, starts, order⟩
      | some true => .ok ⟨visited, ⟨id, next + 1⟩ :: outer, starts, order⟩

/-- The state after some steps, or the end if the search has come to it by then. -/
def proceedFor (graph : TypeGraph) : Nat → FlaggedSearch → Except Halt FlaggedSearch
  | 0, search => .ok search
  | steps + 1, search => graph.proceed search >>= graph.proceedFor steps

/-- The state before the first step: no flag is set. -/
def unflagged (graph : TypeGraph) (starts : List TypeId) : FlaggedSearch :=
  ⟨List.replicate graph.size false, [], starts, []⟩

variable {graph : TypeGraph}

/-! ## Marks and flags -/

/-- Whether the search has come to a type with this mark. -/
def Mark.isVisited : Mark → Bool
  | .unvisited => false
  | _ => true

/-- A search with marks that has put types in order, without the difference between types on
the stack and types in order. -/
def ColouredSearch.flags (search : ColouredSearch) (order : List TypeId) : FlaggedSearch :=
  ⟨search.marks.map Mark.isVisited, search.stack, search.starts, order⟩

theorem flags_beginningAt (graph : TypeGraph) (starts : List TypeId) :
    (graph.beginningAt starts).flags [] = graph.unflagged starts := by
  simp [ColouredSearch.flags, beginningAt, unflagged, Mark.isVisited]

section

variable {done : List TypeId} {search later : ColouredSearch}

/-- A step of the search with marks is one of the search with flags. -/
theorem Ongoing.proceed (h : graph.Ongoing done search) (hMoves : graph.Moves search later) :
    graph.proceed (search.flags done) = .ok (later.flags (done ++ graph.finished search)) := by
  cases hMoves with
  | enter hMark =>
      simp [ColouredSearch.flags, TypeGraph.proceed, hMark, Mark.isVisited, finished,
        List.map_set]
  | @skip marks start rest mark hMark hVisited =>
      have hFlag : mark.isVisited = true := by
        cases mark with
        | unvisited => exact absurd rfl hVisited
        | onStack => rfl
        | done => rfl
      simp [ColouredSearch.flags, TypeGraph.proceed, hMark, hFlag, finished]
  | @leave marks id next outer starts hEnd =>
      -- The type was on the stack, so its flag is set already.
      have hMark : marks[id]? = some .onStack := (h.onStack id).2 (by simp)
      have hFlags : (marks.set id .done).map Mark.isVisited = marks.map Mark.isVisited := by
        refine List.ext_getElem? fun other => ?_
        rw [List.getElem?_map, List.getElem?_map, List.getElem?_set]
        by_cases hSame : id = other
        · have hLt := (List.getElem?_eq_some_iff.1 hMark).1
          rw [← hSame, if_pos rfl, if_pos hLt, hMark]
          rfl
        · rw [if_neg hSame]
      simp [ColouredSearch.flags, TypeGraph.proceed, hEnd, hFlags, finished]
  | descend hNext hMark =>
      simp [ColouredSearch.flags, TypeGraph.proceed, hNext, hMark, Mark.isVisited, finished,
        List.map_set]
  | pass hNext hMark =>
      simp [ColouredSearch.flags, TypeGraph.proceed, hNext, hMark, Mark.isVisited, finished]

/-- The two searches go on alike, and leave the recursive search as much to do. -/
theorem Ongoing.proceedFor {steps : Nat} (h : graph.Ongoing done search)
    (hAfter : graph.after steps search = .ok later) :
    ∃ order, graph.proceedFor steps (search.flags done) = .ok (later.flags order) ∧
      graph.Ongoing order later ∧
      graph.resume later.starts later.stack order =
        graph.resume search.starts search.stack done := by
  induction steps generalizing done search with
  | zero =>
      cases hAfter
      exact ⟨done, rfl, h, rfl⟩
  | succ steps ih =>
      rw [TypeGraph.after] at hAfter
      obtain ⟨next, hNext, hRest⟩ := bind_eq_ok.1 hAfter
      have hMoves := moves_of_advance hNext
      obtain ⟨order, hSteps, hLater, hLast⟩ := ih (h.moves hMoves) hRest
      refine ⟨order, ?_, hLater, hLast.trans (h.resume_moves hMoves)⟩
      rw [TypeGraph.proceedFor, h.proceed hMoves]
      exact hSteps

/-- Where the recursive search has an order, the search with marks ends without a cycle, and the
search with flags with that order. -/
theorem Ongoing.ordered {order : List TypeId} {verdict : Verdict} (h : graph.Ongoing done search)
    (hArena : graph.InArena)
    (hOrder : graph.resume search.starts search.stack done = .ok order)
    (hEnd : graph.advance search = .error verdict) :
    graph.proceed (search.flags done) = .error (.ordered order) := by
  have hEnds := ends_of_advance hEnd
  have hAnswer := h.ends hArena hEnds
  rw [hOrder] at hAnswer
  cases hEnds with
  | @acyclic marks =>
      have hSame : graph.depthFirst [] done [] = .ok order := hOrder
      rw [depthFirst_nil] at hSame
      cases hSame
      rfl
  | noStart hNone => simp [Verdict.answer?] at hAnswer
  | noDependency hNext hNone => simp [Verdict.answer?] at hAnswer
  | cycle hNext hMark => simp [Verdict.answer?, answerOf, Except.mapError, Except.map] at hAnswer

end

/-- The search with flags ends with the order of the recursive search, if there is one. -/
theorem exists_proceedFor (hArena : graph.InArena) {starts order : List TypeId}
    (hStarts : ∀ id ∈ starts, id < graph.size)
    (hOrder : graph.depthFirst [] [] starts = .ok order) :
    ∃ steps ≤ graph.edgeCount + graph.size + starts.length, ∃ last,
      graph.proceedFor steps (graph.unflagged starts) = .ok last ∧
      graph.proceed last = .error (.ordered order) := by
  have hBeginning := ongoing_beginningAt hStarts
  obtain ⟨steps, hLe, last, hAfter, hEnd⟩ := after_verdictFrom (graph.beginningAt starts)
  obtain ⟨done, hSteps, hOngoing, hResume⟩ := hBeginning.proceedFor hAfter
  rw [flags_beginningAt] at hSteps
  rw [cost_beginningAt] at hLe
  exact ⟨steps, hLe, last.flags done, hSteps,
    hOngoing.ordered hArena (hResume.trans hOrder) hEnd⟩

/-! ## The plain recursion -/

/-- With `done` emitted before, the types of `pending` and what they depend on make it `order`.
A type comes after what its dependencies emit, and what is emitted already is skipped. -/
inductive Emits (graph : TypeGraph) : (done pending order : List TypeId) → Prop
  | nil {done : List TypeId} : Emits graph done [] done
  | skip {done rest order : List TypeId} {id : TypeId} :
      id ∈ done → Emits graph done rest order → Emits graph done (id :: rest) order
  | visit {done inner rest order : List TypeId} {id : TypeId} :
      id ∉ done → Emits graph done (graph.dependenciesOf id) inner →
      Emits graph (inner ++ [id]) rest order → Emits graph done (id :: rest) order

theorem Emits.unique {done pending order other : List TypeId} (h : graph.Emits done pending order)
    (hOther : graph.Emits done pending other) : order = other := by
  induction h generalizing other with
  | nil =>
      cases hOther
      rfl
  | skip hDone _ ih =>
      cases hOther with
      | skip _ hRest => exact ih hRest
      | visit hNew _ _ => exact absurd hDone hNew
  | visit hNew _ _ ihInner ihRest =>
      cases hOther with
      | skip hDone _ => exact absurd hDone hNew
      | visit _ hInner hRest =>
          have hSame := ihInner hInner
          rw [← hSame] at hRest
          exact ihRest hRest

/-- A search that meets no cycle is the plain recursion. -/
theorem emits_of_depthFirst (hArena : graph.InArena) {path done pending order : List TypeId}
    (h : graph.depthFirst path done pending = .ok order)
    (hPending : ∀ id ∈ pending, id < graph.size) : graph.Emits done pending order := by
  induction path, done, pending using depthFirst.induct graph generalizing order with
  | case1 path done =>
      rw [depthFirst_nil] at h
      cases h
      exact .nil
  | case2 path done id rest hPath =>
      rw [depthFirst_of_mem_path hPath] at h
      cases h
  | case3 path done id rest hPath hSeen ih =>
      rw [depthFirst_of_mem_done hPath hSeen] at h
      exact .skip hSeen (ih h fun d hd => hPending d (List.mem_cons_of_mem _ hd))
  | case4 path done id rest hPath hSeen hNone ih =>
      obtain ⟨entry, hEntry⟩ := exists_get?_of_lt (hPending id List.mem_cons_self)
      rw [hNone] at hEntry
      cases hEntry
  | case5 path done id rest hPath hSeen entry hEntry cycle hInner ih =>
      rw [depthFirst_of_get? hPath hSeen hEntry, hInner] at h
      cases h
  | case6 path done id rest hPath hSeen entry hEntry inner hInner ih ihRest =>
      rw [depthFirst_of_get? hPath hSeen hEntry, hInner] at h
      have hDeps : graph.Emits done (graph.dependenciesOf id) inner := by
        rw [dependenciesOf_of_get? hEntry]
        exact ih hInner (hArena entry (List.mem_of_getElem? hEntry))
      exact .visit hSeen hDeps (ihRest h fun d hd => hPending d (List.mem_cons_of_mem _ hd))

theorem emits_iff (hArena : graph.InArena) {starts order : List TypeId}
    (hStarts : ∀ id ∈ starts, id < graph.size)
    (hOrder : graph.depthFirst [] [] starts = .ok order) (other : List TypeId) :
    graph.Emits [] starts other ↔ other = order := by
  have hEmits := emits_of_depthFirst hArena hOrder hStarts
  constructor
  · intro hOther
    exact hOther.unique hEmits
  · rintro rfl
    exact hEmits

/-! ## What is in the order, and where -/

/-- A type of an arranged order comes after all that it contains, directly or not. -/
theorem Arranged.mem_before_of_transGen {order : List TypeId} (h : graph.Arranged order)
    (hArena : graph.InArena) {id d : TypeId} (hPath : Relation.TransGen graph.Links id d)
    {before after : List TypeId} (hSplit : order = before ++ id :: after) : d ∈ before := by
  have hLinked : ∀ {id d : TypeId} {before after : List TypeId}, order = before ++ id :: after →
      graph.Links id d → d ∈ before := by
    intro id d before after hSplit hLinks
    obtain ⟨nested, hNested⟩ := exists_get?_of_lt (hArena.links_lt hLinks)
    obtain ⟨entry, hEntry, hd⟩ := hLinks
    rcases h.mem_before hSplit hEntry hd with hBefore | hNone
    · exact hBefore
    · rw [hNested] at hNone
      cases hNone
  induction hPath with
  | single hLinks => exact hLinked hSplit hLinks
  | @tail middle d _ hLinks ih =>
      obtain ⟨front, back, rfl⟩ := List.append_of_mem ih
      have hMiddle : order = front ++ middle :: (back ++ id :: after) := by simp [hSplit]
      exact List.mem_append_left _ (hLinked hMiddle hLinks)

/-- The order of a search lists the starting types and what they contain, and nothing else. -/
theorem mem_order_iff (hArena : graph.InArena) {starts order : List TypeId}
    (hStarts : ∀ id ∈ starts, id < graph.size)
    (hOrder : graph.depthFirst [] [] starts = .ok order) (id : TypeId) :
    id ∈ order ↔ ∃ start ∈ starts, Relation.ReflTransGen graph.Links start id := by
  obtain ⟨hArranged, hPending, added, hAdded, _, hOnly⟩ := depthFirst_ok hOrder .nil
  constructor
  · intro hid
    rw [hAdded, List.nil_append] at hid
    refine hOnly (fun id => ∃ start ∈ starts, Relation.ReflTransGen graph.Links start id)
      ?_ (fun start hStart => ⟨start, hStart, .refl⟩) id hid
    rintro id entry ⟨start, hStart, hPath⟩ hEntry d hd
    exact ⟨start, hStart, hPath.tail ⟨entry, hEntry, hd⟩⟩
  · rintro ⟨start, hStart, hPath⟩
    have hFirst : start ∈ order := by
      obtain ⟨entry, hEntry⟩ := exists_get?_of_lt (hStarts start hStart)
      rcases hPending start hStart with hMem | hNone
      · exact hMem
      · rw [hEntry] at hNone
        cases hNone
    rcases Relation.reflTransGen_iff_eq_or_transGen.1 hPath with hSame | hPath
    · rwa [hSame]
    · obtain ⟨before, after, hSplit⟩ := List.append_of_mem hFirst
      have hBefore := hArranged.mem_before_of_transGen hArena hPath hSplit
      rw [hSplit]
      exact List.mem_append_left _ hBefore

/-- In an acyclic graph there is an order from all starting types. -/
theorem exists_order_of_acyclic (hArena : graph.InArena)
    (hAcyclic : ∀ id, ¬ Relation.TransGen graph.Links id id) (starts : List TypeId) :
    ∃ order, graph.depthFirst [] [] starts = .ok order := by
  obtain ⟨all, hAll⟩ := (exists_checkAcyclic_iff hArena).2 hAcyclic
  obtain ⟨hArranged, hMem⟩ := arranged_of_checkAcyclic hAll
  exact exists_depthFirst_ok hArranged hMem starts

/-- **Topological order**: in an acyclic graph whose dependencies are types of the graph, the
search with flags ends from any starting types, within as many steps as there are containments,
types and starting types.  It ends with their post-order.  The post-order has every type that
they contain and no other, none of them twice, and each behind all that it contains.  The plain
recursion emits this order and no other. -/
theorem postOrder_is_topological (hArena : graph.InArena)
    (hAcyclic : ∀ id, ¬ Relation.TransGen graph.Links id id) {starts : List TypeId}
    (hStarts : ∀ id ∈ starts, id < graph.size) :
    (∃ steps ≤ graph.edgeCount + graph.size + starts.length, ∃ last,
        graph.proceedFor steps (graph.unflagged starts) = .ok last ∧
        graph.proceed last = .error (.ordered (graph.postOrder starts))) ∧
      (graph.postOrder starts).Nodup ∧
      (∀ id, id ∈ graph.postOrder starts ↔
        ∃ start ∈ starts, Relation.ReflTransGen graph.Links start id) ∧
      (∀ before id after, graph.postOrder starts = before ++ id :: after →
        ∀ d, Relation.TransGen graph.Links id d → d ∈ before) ∧
      ∀ order, graph.Emits [] starts order ↔ order = graph.postOrder starts := by
  obtain ⟨order, hOrder⟩ := exists_order_of_acyclic hArena hAcyclic starts
  have hPostOrder : graph.postOrder starts = order := by
    rw [postOrder, hOrder]
  have hArranged := (depthFirst_ok hOrder .nil).1
  rw [hPostOrder]
  refine ⟨exists_proceedFor hArena hStarts hOrder, hArranged.nodup,
    mem_order_iff hArena hStarts hOrder, ?_, emits_iff hArena hStarts hOrder⟩
  intro before id after hSplit d hPath
  exact hArranged.mem_before_of_transGen hArena hPath hSplit

end WireSchema.TypeGraph

namespace WireSchema.Sample

/-- A batch holds packets and frames, a packet holds frames, and both hold a header. -/
def lattice : TypeGraph :=
  ⟨[ ⟨⟨"Batch", .struct, []⟩, [2, 1], [], false⟩, ⟨⟨"Packet", .struct, []⟩, [2, 3], [0], false⟩,
     ⟨⟨"Frame", .struct, []⟩, [3], [0, 1], false⟩, ⟨⟨"Header", .struct, []⟩, [], [1, 2], false⟩ ],
    [1, 0, 1]⟩

theorem lattice_in_order :
    lattice.InArena ∧ (∀ id, ¬ Relation.TransGen lattice.Links id id) ∧
      (∀ id ∈ lattice.roots, id < lattice.size) ∧
      lattice.postOrder lattice.roots = [3, 2, 1, 0] ∧
      ∀ d, Relation.TransGen lattice.Links 1 d → d ∈ [3, 2] := by
  have hArena : lattice.InArena := by
    unfold TypeGraph.InArena
    decide
  -- Whatever a type contains has a greater id.
  have hLinks : ∀ id d, lattice.Links id d → id < d := by
    rintro id d ⟨entry, hEntry, hd⟩
    have hLt := (List.getElem?_eq_some_iff.1 hEntry).1
    have hAll : ∀ id < lattice.size, ∀ d ∈ lattice.dependenciesOf id, id < d := by decide
    refine hAll id hLt d ?_
    rwa [TypeGraph.dependenciesOf_of_get? hEntry]
  have hAcyclic : ∀ id, ¬ Relation.TransGen lattice.Links id id := by
    have hLt : ∀ {id d}, Relation.TransGen lattice.Links id d → id < d := by
      intro id d hPath
      induction hPath with
      | single hOne => exact hLinks _ _ hOne
      | tail _ hOne ih => exact ih.trans (hLinks _ _ hOne)
    intro id hPath
    exact Nat.lt_irrefl _ (hLt hPath)
  have hStarts : ∀ id ∈ lattice.roots, id < lattice.size := by decide
  obtain ⟨_, _, _, hBefore, hEmits⟩ :=
    TypeGraph.postOrder_is_topological hArena hAcyclic hStarts
  have hOrder : [3, 2, 1, 0] = lattice.postOrder lattice.roots := by
    refine (hEmits _).1 ?_
    have hFrame : lattice.Emits [] [2, 3] [3, 2] :=
      .visit (by decide) (.visit (by decide) .nil .nil) (.skip (by decide) .nil)
    have hBatch : lattice.Emits [3, 2, 1] [2, 1] [3, 2, 1] :=
      .skip (by decide) (.skip (by decide) .nil)
    have hAgain : lattice.Emits [3, 2, 1, 0] [1] [3, 2, 1, 0] := .skip (by decide) .nil
    exact .visit (by decide) hFrame (.visit (by decide) hBatch hAgain)
  exact ⟨hArena, hAcyclic, hStarts, hOrder.symm, hBefore [3, 2] 1 [0] hOrder.symm⟩

end WireSchema.Sample
