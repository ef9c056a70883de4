import Mathlib.Data.List.Chain
import Mathlib.Data.List.Dedup
import Mathlib.Data.List.Nodup
import WireSchema.Proofs.Outcome
import WireSchema.TypeGraph.Order

/-!
# What the depth-first search puts in order

An order is *arranged* if it lists no type twice and every type after the types nested
in it.  The search keeps that, adds what the starting types contain and nothing else,
and fails only on a cycle: once one order lists every type of the graph, the search
from any starting types succeeds.

## Main results

* `depthFirst_ok`: what a successful search has added.
* `depthFirst_error`: a search that fails has found a cycle.
* `exists_depthFirst_ok`: a search in an acyclic graph succeeds.
* `Arranged.mem_before`: a type in an arranged order comes after what it contains.
-/

namespace WireSchema.TypeGraph

variable {graph : TypeGraph}

/-- No type twice, and each after the types of the graph that are nested in it. -/
inductive Arranged (graph : TypeGraph) : List TypeId → Prop
  | nil : Arranged graph []
  | snoc {done : List TypeId} {id : TypeId} {entry : TypeEntry} :
      Arranged graph done → id ∉ done → graph.get? id = some entry →
      (∀ d ∈ entry.dependencies, d ∈ done ∨ graph.get? d = none) →
      Arranged graph (done ++ [id])

/-- A set of types that has what its types contain. -/
def Closed (graph : TypeGraph) (included : TypeId → Prop) : Prop :=
  ∀ id entry, included id → graph.get? id = some entry → ∀ d ∈ entry.dependencies, included d

theorem Arranged.nodup {order : List TypeId} (h : Arranged graph order) : order.Nodup := by
  induction h with
  | nil => exact List.nodup_nil
  | snoc _ hNew _ _ ih =>
      refine List.nodup_append.2 ⟨ih, by simp, ?_⟩
      intro a ha b hb
      rw [List.mem_singleton.1 hb]
      exact fun e => hNew (e ▸ ha)

theorem Arranged.valid {order : List TypeId} (h : Arranged graph order) :
    ∀ id ∈ order, ∃ entry, graph.get? id = some entry := by
  induction h with
  | nil => simp
  | snoc _ _ hEntry _ ih =>
      intro id hid
      rcases List.mem_append.1 hid with hid | hid
      · exact ih id hid
      · rw [List.mem_singleton.1 hid]
        exact ⟨_, hEntry⟩

/-- A type of an arranged order comes after the types nested in it. -/
theorem Arranged.mem_before {order : List TypeId} (h : Arranged graph order) :
    ∀ {before after : List TypeId} {id d : TypeId} {entry : TypeEntry},
      order = before ++ id :: after → graph.get? id = some entry → d ∈ entry.dependencies →
      d ∈ before ∨ graph.get? d = none := by
  induction h with
  | nil =>
      intro before after id d entry hSplit
      simp at hSplit
  | @snoc done last _ _ _ hEntry hDeps ih =>
      intro before after id d entry hSplit hid hd
      rcases List.eq_nil_or_concat after with rfl | ⟨rest, x, rfl⟩
      · obtain ⟨rfl, hLast⟩ := List.append_inj' hSplit rfl
        obtain rfl : last = id := by simpa using hLast
        rw [hEntry] at hid
        exact hDeps d (Option.some.inj hid ▸ hd)
      · have hSplit' : done ++ [last] = (before ++ id :: rest) ++ [x] := by
          simpa using hSplit
        exact ih (List.append_inj' hSplit' rfl).1 hid hd

/-- The types of an arranged order contain only each other. -/
theorem Arranged.closed {order : List TypeId} (h : Arranged graph order) :
    graph.Closed fun id => id ∈ order ∨ graph.get? id = none := by
  intro id entry hid hEntry d hd
  rcases hid with hid | hid
  · obtain ⟨before, after, hSplit⟩ := List.append_of_mem hid
    refine (h.mem_before hSplit hEntry hd).imp_left fun hBefore => ?_
    rw [hSplit]
    exact List.mem_append_left _ hBefore
  · rw [hid] at hEntry
    cases hEntry

/-! ## The search -/

@[simp]
theorem depthFirst_nil (path done : List TypeId) :
    graph.depthFirst path done [] = .ok done := by
  rw [depthFirst]

theorem depthFirst_of_mem_path {path done rest : List TypeId} {id : TypeId} (h : id ∈ path) :
    graph.depthFirst path done (id :: rest) = .error (closeCycle path id) := by
  rw [depthFirst, dif_pos h]

theorem depthFirst_of_mem_done {path done rest : List TypeId} {id : TypeId} (hPath : id ∉ path)
    (hDone : id ∈ done) :
    graph.depthFirst path done (id :: rest) = graph.depthFirst path done rest := by
  rw [depthFirst, dif_neg hPath, if_pos hDone]

theorem depthFirst_of_get?_eq_none {path done rest : List TypeId} {id : TypeId}
    (hPath : id ∉ path) (hDone : id ∉ done) (hNone : graph.get? id = none) :
    graph.depthFirst path done (id :: rest) = graph.depthFirst path done rest := by
  rw [depthFirst, dif_neg hPath, if_neg hDone]
  split
  · rfl
  · simp_all

/-- A type that is neither in order nor on the path is put after what it contains. -/
theorem depthFirst_of_get? {path done rest : List TypeId} {id : TypeId} {entry : TypeEntry}
    (hPath : id ∉ path) (hDone : id ∉ done) (hEntry : graph.get? id = some entry) :
    graph.depthFirst path done (id :: rest) =
      (graph.depthFirst (path ++ [id]) done entry.dependencies >>= fun inner =>
        graph.depthFirst path (inner ++ [id]) rest) := by
  rw [depthFirst, dif_neg hPath, if_neg hDone]
  split
  · simp_all
  · rename_i found hFound
    rw [hEntry] at hFound
    cases hFound
    cases graph.depthFirst (path ++ [id]) done entry.dependencies <;> rfl

/-- Searches that go on alike from every order do so behind one more type. -/
theorem depthFirst_cons_congr {path done rest other : List TypeId} {id : TypeId}
    (h : ∀ done, graph.depthFirst path done rest = graph.depthFirst path done other) :
    graph.depthFirst path done (id :: rest) = graph.depthFirst path done (id :: other) := by
  by_cases hPath : id ∈ path
  · rw [depthFirst_of_mem_path hPath, depthFirst_of_mem_path hPath]
  · by_cases hDone : id ∈ done
    · rw [depthFirst_of_mem_done hPath hDone, depthFirst_of_mem_done hPath hDone, h]
    · cases hEntry : graph.get? id with
      | none =>
          rw [depthFirst_of_get?_eq_none hPath hDone hEntry,
            depthFirst_of_get?_eq_none hPath hDone hEntry, h]
      | some entry =>
          rw [depthFirst_of_get? hPath hDone hEntry, depthFirst_of_get? hPath hDone hEntry]
          simp only [h]

/-- A type that is pending twice in a row is put in order once. -/
theorem depthFirst_cons_cons {path done rest : List TypeId} {id : TypeId} :
    graph.depthFirst path done (id :: id :: rest) = graph.depthFirst path done (id :: rest) := by
  by_cases hPath : id ∈ path
  · rw [depthFirst_of_mem_path hPath, depthFirst_of_mem_path hPath]
  · by_cases hDone : id ∈ done
    · rw [depthFirst_of_mem_done hPath hDone]
    · cases hEntry : graph.get? id with
      | none => rw [depthFirst_of_get?_eq_none hPath hDone hEntry]
      | some entry =>
          rw [depthFirst_of_get? hPath hDone hEntry, depthFirst_of_get? hPath hDone hEntry]
          simp [depthFirst_of_mem_done hPath]

/-- Where equal types stand next to each other, it does not matter how many they are. -/
theorem depthFirst_dedup {path done pending : List TypeId} {R : TypeId → TypeId → Prop}
    (hSorted : pending.Pairwise R)
    (hAntisymm : ∀ a ∈ pending, ∀ b ∈ pending, R a b → R b a → a = b) :
    graph.depthFirst path done pending.dedup = graph.depthFirst path done pending := by
  induction pending generalizing done with
  | nil => rfl
  | cons id rest ih =>
      obtain ⟨hFirst, hRest⟩ := List.pairwise_cons.1 hSorted
      have hTail : ∀ done,
          graph.depthFirst path done rest.dedup = graph.depthFirst path done rest :=
        fun _ => ih hRest fun a ha b hb =>
          hAntisymm a (List.mem_cons_of_mem _ ha) b (List.mem_cons_of_mem _ hb)
      by_cases hMem : id ∈ rest
      · rw [List.dedup_cons_of_mem hMem, hTail]
        cases rest with
        | nil => cases hMem
        | cons next rest =>
            have hSame : id = next := by
              rcases List.mem_cons.1 hMem with hSame | hMem
              · exact hSame
              · exact hAntisymm id (by simp) next (by simp) (hFirst next (by simp))
                  ((List.pairwise_cons.1 hRest).1 id hMem)
            rw [← hSame, depthFirst_cons_cons]
      · rw [List.dedup_cons_of_notMem hMem]
        exact depthFirst_cons_congr hTail

/-- What a successful search has added: the order stays arranged, has the pending types
and nothing outside what they contain, and none of the types the search is inside of. -/
theorem depthFirst_ok {path done pending order : List TypeId}
    (h : graph.depthFirst path done pending = .ok order) (hDone : Arranged graph done) :
    Arranged graph order ∧
      (∀ id ∈ pending, id ∈ order ∨ graph.get? id = none) ∧
      ∃ added, order = done ++ added ∧ (∀ id ∈ added, id ∉ path) ∧
        ∀ included, graph.Closed included → (∀ id ∈ pending, included id) →
          ∀ id ∈ added, included id := by
  induction path, done, pending using depthFirst.induct graph generalizing order with
  | case1 path done =>
      rw [depthFirst_nil] at h
      cases h
      exact ⟨hDone, by simp, [], by simp, by simp, by simp⟩
  | case2 path done id rest hPath =>
      rw [depthFirst_of_mem_path hPath] at h
      cases h
  | case3 path done id rest hPath hSeen ih =>
      rw [depthFirst_of_mem_done hPath hSeen] at h
      obtain ⟨hOrder, hPending, added, rfl, hFresh, hOnly⟩ := ih h hDone
      refine ⟨hOrder, ?_, added, rfl, hFresh, fun included hClosed hAll => ?_⟩
      · exact List.forall_mem_cons.2 ⟨.inl (List.mem_append_left _ hSeen), hPending⟩
      · exact hOnly included hClosed (List.forall_mem_cons.1 hAll).2
  | case4 path done id rest hPath hSeen hNone ih =>
      rw [depthFirst_of_get?_eq_none hPath hSeen hNone] at h
      obtain ⟨hOrder, hPending, added, rfl, hFresh, hOnly⟩ := ih h hDone
      refine ⟨hOrder, ?_, added, rfl, hFresh, fun included hClosed hAll => ?_⟩
      · exact List.forall_mem_cons.2 ⟨.inr hNone, hPending⟩
      · exact hOnly included hClosed (List.forall_mem_cons.1 hAll).2
  | case5 path done id rest hPath hSeen entry hEntry cycle hInner ih =>
      rw [depthFirst_of_get? hPath hSeen hEntry, hInner] at h
      cases h
  | case6 path done id rest hPath hSeen entry hEntry inner hInner ih ihRest =>
      rw [depthFirst_of_get? hPath hSeen hEntry, hInner] at h
      obtain ⟨hArranged, hDeps, first, rfl, hFirst, hOnlyFirst⟩ := ih hInner hDone
      -- `id` is on the path of the inner search, so it is not among what that one added.
      have hNew : id ∉ done ++ first := by
        intro hid
        rcases List.mem_append.1 hid with hid | hid
        · exact hSeen hid
        · exact hFirst id hid (by simp)
      obtain ⟨hOrder, hPending, second, rfl, hSecond, hOnlySecond⟩ :=
        ihRest h (.snoc hArranged hNew hEntry hDeps)
      refine ⟨hOrder, ?_, first ++ id :: second, by simp, ?_, fun included hClosed hAll => ?_⟩
      · exact List.forall_mem_cons.2 ⟨.inl (by simp), hPending⟩
      · intro x hx
        rcases List.mem_append.1 hx with hx | hx
        · exact fun hOn => hFirst x hx (List.mem_append_left _ hOn)
        · rcases List.mem_cons.1 hx with rfl | hx
          · exact hPath
          · exact hSecond x hx
      · obtain ⟨hHead, hTail⟩ := List.forall_mem_cons.1 hAll
        intro x hx
        rcases List.mem_append.1 hx with hx | hx
        · exact hOnlyFirst included hClosed (hClosed id entry hHead hEntry) x hx
        · rcases List.mem_cons.1 hx with rfl | hx
          · exact hHead
          · exact hOnlySecond included hClosed hTail x hx

/-! ## Cycles -/

/-- The type is in the graph and has the other one nested in it. -/
def Links (graph : TypeGraph) (id d : TypeId) : Prop :=
  ∃ entry, graph.get? id = some entry ∧ d ∈ entry.dependencies

/-- Types that are nested in each other, from one back to itself and none of them twice. -/
def IsCycle (graph : TypeGraph) (cycle : List TypeId) : Prop :=
  ∃ id rest, cycle = id :: rest ++ [id] ∧ (id :: rest).Nodup ∧ cycle.IsChain graph.Links

/-- A path that meets a type it is inside of has gone in a circle. -/
theorem isCycle_closeCycle {path : List TypeId} {id : TypeId} (hMem : id ∈ path)
    (hNodup : path.Nodup) (hChain : (path ++ [id]).IsChain graph.Links) :
    graph.IsCycle (closeCycle path id) := by
  obtain ⟨before, rest, rfl, hNotBefore⟩ := List.eq_append_cons_of_mem hMem
  have hDropped : closeCycle (before ++ id :: rest) id = id :: rest ++ [id] := by
    unfold closeCycle
    rw [List.dropWhile_append_of_pos fun p hp => by
      simpa using fun hEq : p = id => hNotBefore (hEq ▸ hp)]
    simp
  refine ⟨id, rest, hDropped, (List.nodup_append.1 hNodup).2.1, ?_⟩
  rw [List.append_assoc] at hChain
  rw [hDropped]
  exact hChain.right_of_append

/-- **Cycles**: a search that fails, inside of types that are nested in each other, has found a
cycle. -/
theorem depthFirst_error {path done pending cycle : List TypeId}
    (h : graph.depthFirst path done pending = .error cycle) (hNodup : path.Nodup)
    (hChain : ∀ d ∈ pending, (path ++ [d]).IsChain graph.Links) : graph.IsCycle cycle := by
  induction path, done, pending using depthFirst.induct graph with
  | case1 path done =>
      rw [depthFirst_nil] at h
      cases h
  | case2 path done id rest hPath =>
      rw [depthFirst_of_mem_path hPath] at h
      cases h
      exact isCycle_closeCycle hPath hNodup (hChain id List.mem_cons_self)
  | case3 path done id rest hPath hSeen ih =>
      rw [depthFirst_of_mem_done hPath hSeen] at h
      exact ih h hNodup fun d hd => hChain d (List.mem_cons_of_mem _ hd)
  | case4 path done id rest hPath hSeen hNone ih =>
      rw [depthFirst_of_get?_eq_none hPath hSeen hNone] at h
      exact ih h hNodup fun d hd => hChain d (List.mem_cons_of_mem _ hd)
  | case5 path done id rest hPath hSeen entry hEntry reason hInner ih =>
      rw [depthFirst_of_get? hPath hSeen hEntry, hInner] at h
      cases h
      refine ih hInner ?_ fun d hd => ?_
      · exact List.nodup_append.2 ⟨hNodup, List.nodup_singleton id, fun p hp q hq hEq =>
          hPath (List.mem_singleton.1 hq ▸ hEq ▸ hp)⟩
      · -- The path goes on from `id` to a type nested in it.
        rw [List.append_assoc, List.singleton_append, List.isChain_append_cons_cons]
        exact ⟨hChain id List.mem_cons_self, ⟨entry, hEntry, hd⟩, List.isChain_singleton d⟩
  | case6 path done id rest hPath hSeen entry hEntry inner hInner ih ihRest =>
      rw [depthFirst_of_get? hPath hSeen hEntry, hInner] at h
      exact ihRest h hNodup fun d hd => hChain d (List.mem_cons_of_mem _ hd)

/-! ## Searches in an acyclic graph -/

/-- The place of a type in an order of the whole graph. -/
theorem idxOf_lt_of_arranged {order : List TypeId} (h : Arranged graph order)
    (hAll : ∀ id entry, graph.get? id = some entry → id ∈ order) {id d : TypeId}
    {entry nested : TypeEntry} (hEntry : graph.get? id = some entry)
    (hd : d ∈ entry.dependencies) (hNested : graph.get? d = some nested) :
    order.idxOf d < order.idxOf id := by
  obtain ⟨before, after, hSplit⟩ := List.append_of_mem (hAll id entry hEntry)
  have hBefore : d ∈ before := by
    rcases h.mem_before hSplit hEntry hd with hBefore | hNone
    · exact hBefore
    · rw [hNested] at hNone
      cases hNone
  have hNotBefore : id ∉ before := by
    intro hid
    have hNodup := hSplit ▸ h.nodup
    exact (List.nodup_append.1 hNodup).2.2 id hid id (by simp) rfl
  rw [hSplit, List.idxOf_append_of_mem hBefore, List.idxOf_append_of_notMem hNotBefore]
  have hLt := List.idxOf_lt_length_of_mem hBefore
  omega

/-- A search whose path lies above all pending types in an order of the whole graph
cannot meet its path again. -/
private theorem exists_depthFirst_of_rank (rank : TypeId → Nat)
    (hRank : ∀ id entry, graph.get? id = some entry → ∀ d ∈ entry.dependencies,
      ∀ nested, graph.get? d = some nested → rank d < rank id)
    {path done pending : List TypeId} (hPath : ∀ p ∈ path, ∃ entry, graph.get? p = some entry)
    (hAbove : ∀ p ∈ path, ∀ id ∈ pending, ∀ entry, graph.get? id = some entry →
      rank id < rank p) :
    ∃ order, graph.depthFirst path done pending = .ok order := by
  induction path, done, pending using depthFirst.induct graph with
  | case1 path done => exact ⟨done, depthFirst_nil path done⟩
  | case2 path done id rest hOn =>
      obtain ⟨entry, hEntry⟩ := hPath id hOn
      exact absurd (hAbove id hOn id (by simp) entry hEntry) (Nat.lt_irrefl _)
  | case3 path done id rest hOff hSeen ih =>
      rw [depthFirst_of_mem_done hOff hSeen]
      exact ih hPath fun p hp x hx => hAbove p hp x (List.mem_cons_of_mem _ hx)
  | case4 path done id rest hOff hSeen hNone ih =>
      rw [depthFirst_of_get?_eq_none hOff hSeen hNone]
      exact ih hPath fun p hp x hx => hAbove p hp x (List.mem_cons_of_mem _ hx)
  | case5 path done id rest hOff hSeen entry hEntry cycle hInner ih =>
      obtain ⟨order, hOrder⟩ := ih
        (by
          intro p hp
          rcases List.mem_append.1 hp with hp | hp
          · exact hPath p hp
          · exact ⟨entry, List.mem_singleton.1 hp ▸ hEntry⟩)
        (by
          intro p hp d hd nested hNested
          have hLt := hRank id entry hEntry d hd nested hNested
          rcases List.mem_append.1 hp with hp | hp
          · exact Nat.lt_trans hLt (hAbove p hp id (by simp) entry hEntry)
          · rwa [List.mem_singleton.1 hp])
      rw [hInner] at hOrder
      cases hOrder
  | case6 path done id rest hOff hSeen entry hEntry inner hInner ih ihRest =>
      rw [depthFirst_of_get? hOff hSeen hEntry, hInner]
      exact ihRest hPath fun p hp x hx => hAbove p hp x (List.mem_cons_of_mem _ hx)

/-- If all types of the graph can be arranged, a search succeeds wherever it starts. -/
theorem exists_depthFirst_ok {order : List TypeId} (h : Arranged graph order)
    (hAll : ∀ id entry, graph.get? id = some entry → id ∈ order) (starts : List TypeId) :
    ∃ found, graph.depthFirst [] [] starts = .ok found :=
  exists_depthFirst_of_rank order.idxOf
    (fun _ _ hEntry _ hd _ hNested => idxOf_lt_of_arranged h hAll hEntry hd hNested)
    (by simp) (by simp)

end WireSchema.TypeGraph
