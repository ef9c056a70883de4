import WireSchema.Proofs.Outcome
import WireSchema.Search.Worklist

/-!
# What a work-list search collects

A successful search has a value for every name it was started with and for every name
that a visit gave, each name once, and for no other names.

## Main results

* `run_visited`: every value is what visiting its name gives, and the names that visit
  gives are collected too.
* `run_starts`, `run_nodup`, `run_only`: the starting names are collected, no name is
  collected twice, and nothing is collected outside a set that visits do not leave.
* `exists_run_of_starts`: the order of the starting names does not matter.
* `run_error`: a search fails because a visit does, and not outside such a set either.
-/

namespace WireSchema.Worklist

variable {α ε : Type} {search : Worklist α ε}

/-- The names that have been collected. -/
abbrev names (found : List (String × α)) : List String :=
  found.map Prod.fst

/-- Searches that make the same visits are the same. -/
theorem eq_of_visit {other : Worklist α ε} (hDomain : search.domain = other.domain)
    (hVisit : ∀ name, search.visit name = other.visit name) : search = other := by
  cases search
  cases other
  obtain rfl := hDomain
  obtain rfl := funext hVisit
  rfl

/-- A set of names that visiting does not leave. -/
def Closed (search : Worklist α ε) (included : String → Prop) : Prop :=
  ∀ name value next, included name → search.visit name = .ok (value, next) →
    ∀ n ∈ next, included n

@[simp]
theorem collect_nil (found : List (String × α)) : search.collect found [] = .ok found := by
  rw [collect]

theorem collect_of_mem {found : List (String × α)} {name : String} {rest : List String}
    (h : name ∈ names found) : search.collect found (name :: rest) = search.collect found rest := by
  rw [collect, dif_pos h]

/-- A name without a value is visited, and what it gives goes on top of the list. -/
theorem collect_of_notMem {found : List (String × α)} {name : String} {rest : List String}
    (h : name ∉ names found) :
    search.collect found (name :: rest) =
      (search.visit name >>= fun given =>
        search.collect (found ++ [(name, given.1)]) (given.2.reverse ++ rest)) := by
  rw [collect, dif_neg h]
  split <;> rename_i hVisit <;> rw [hVisit] <;> rfl

/-- What a successful search has added to what was found before. -/
theorem collect_ok {found result : List (String × α)} {stack : List String}
    (h : search.collect found stack = .ok result) (hFound : (names found).Nodup) :
    (names result).Nodup ∧ (∀ n ∈ stack, n ∈ names result) ∧
      ∃ added, result = found ++ added ∧
        (∀ name value, (name, value) ∈ added →
          ∃ next, search.visit name = .ok (value, next) ∧ ∀ n ∈ next, n ∈ names result) ∧
        ∀ included, search.Closed included → (∀ n ∈ stack, included n) →
          ∀ n ∈ names added, included n := by
  induction found, stack using collect.induct search generalizing result with
  | case1 found =>
      rw [collect_nil] at h
      cases h
      exact ⟨hFound, by simp, [], by simp, by simp, by simp [names]⟩
  | case2 found name rest hSeen ih =>
      rw [collect_of_mem hSeen] at h
      obtain ⟨hNodup, hStack, added, rfl, hVisited, hOnly⟩ := ih h hFound
      refine ⟨hNodup, ?_, added, rfl, hVisited, fun included hClosed hAll => ?_⟩
      · refine List.forall_mem_cons.2 ⟨?_, hStack⟩
        rw [names, List.map_append]
        exact List.mem_append_left _ hSeen
      · exact hOnly included hClosed (List.forall_mem_cons.1 hAll).2
  | case3 found name rest hNew e hVisit =>
      rw [collect_of_notMem hNew, hVisit] at h
      cases h
  | case4 found name rest hNew value next hVisit ih =>
      rw [collect_of_notMem hNew, hVisit] at h
      rw [List.unattach_reverse, List.unattach_attach] at ih
      have hNames : (names (found ++ [(name, value)])).Nodup := by
        rw [names, List.map_append]
        refine List.nodup_append.2 ⟨hFound, by simp, ?_⟩
        intro a ha b hb
        rw [show b = name by simpa using hb]
        exact fun e => hNew (e ▸ ha)
      obtain ⟨hNodup, hStack, added, rfl, hVisited, hOnly⟩ := ih h hNames
      obtain ⟨hNext, hRest⟩ := List.forall_mem_append.1 hStack
      refine ⟨hNodup, ?_, (name, value) :: added, by simp, ?_, fun included hClosed hAll => ?_⟩
      · exact List.forall_mem_cons.2 ⟨by simp [names], hRest⟩
      · intro n v hMem
        rcases List.mem_cons.1 hMem with hMem | hMem
        · cases hMem
          exact ⟨next, hVisit, fun m hm => hNext m (List.mem_reverse.2 hm)⟩
        · exact hVisited n v hMem
      · obtain ⟨hHead, hTail⟩ := List.forall_mem_cons.1 hAll
        have hTop : ∀ n ∈ next.reverse ++ rest, included n := by
          refine List.forall_mem_append.2 ⟨fun n hn => ?_, hTail⟩
          exact hClosed name value next hHead hVisit n (List.mem_reverse.1 hn)
        intro n hn
        rcases List.mem_cons.1 hn with rfl | hn
        · exact hHead
        · exact hOnly included hClosed hTop n hn

/-- A search that fails has come to a name whose visit fails. -/
theorem collect_error {found : List (String × α)} {stack : List String} {e : ε}
    (h : search.collect found stack = .error e) {included : String → Prop}
    (hClosed : search.Closed included) (hStack : ∀ n ∈ stack, included n) :
    ∃ name, included name ∧ search.visit name = .error e := by
  induction found, stack using collect.induct search with
  | case1 found =>
      rw [collect_nil] at h
      cases h
  | case2 found name rest hSeen ih =>
      rw [collect_of_mem hSeen] at h
      exact ih h (List.forall_mem_cons.1 hStack).2
  | case3 found name rest hNew reason hVisit =>
      rw [collect_of_notMem hNew, hVisit] at h
      cases h
      exact ⟨name, hStack name List.mem_cons_self, hVisit⟩
  | case4 found name rest hNew value next hVisit ih =>
      rw [collect_of_notMem hNew, hVisit] at h
      rw [List.unattach_reverse, List.unattach_attach] at ih
      obtain ⟨hHead, hRest⟩ := List.forall_mem_cons.1 hStack
      refine ih h (List.forall_mem_append.2 ⟨fun n hn => ?_, hRest⟩)
      exact hClosed name value next hHead hVisit n (List.mem_reverse.1 hn)

section Run

variable {starts : List String} {result : List (String × α)}

theorem run_nodup (h : search.run starts = .ok result) : (names result).Nodup :=
  (collect_ok h List.nodup_nil).1

theorem run_starts (h : search.run starts = .ok result) : ∀ n ∈ starts, n ∈ names result :=
  fun n hn => (collect_ok h List.nodup_nil).2.1 n (List.mem_reverse.2 hn)

/-- Every value is what visiting its name gives, and the search went on from there. -/
theorem run_visited (h : search.run starts = .ok result) {name : String} {value : α}
    (hMem : (name, value) ∈ result) :
    ∃ next, search.visit name = .ok (value, next) ∧ ∀ n ∈ next, n ∈ names result := by
  obtain ⟨_, _, added, rfl, hVisited, _⟩ := collect_ok h List.nodup_nil
  exact hVisited name value (by simpa using hMem)

theorem run_only (h : search.run starts = .ok result) {included : String → Prop}
    (hClosed : search.Closed included) (hStarts : ∀ n ∈ starts, included n) :
    ∀ n ∈ names result, included n := by
  obtain ⟨_, _, added, rfl, _, hOnly⟩ := collect_ok h List.nodup_nil
  intro n hn
  exact hOnly included hClosed (fun m hm => hStarts m (List.mem_reverse.1 hm)) n (by simpa using hn)

theorem run_error {e : ε} (h : search.run starts = .error e) {included : String → Prop}
    (hClosed : search.Closed included) (hStarts : ∀ n ∈ starts, included n) :
    ∃ name, included name ∧ search.visit name = .error e :=
  collect_error h hClosed fun n hn => hStarts n (List.mem_reverse.1 hn)

/-- A name has the value that visiting it gives, if it has been collected. -/
theorem lookup_eq_some (h : search.run starts = .ok result) {name : String} {value : α} :
    result.lookup name = some value ↔
      name ∈ names result ∧ ∃ next, search.visit name = .ok (value, next) := by
  constructor
  · intro hLookup
    obtain ⟨front, back, hSplit, _⟩ := List.lookup_eq_some_iff.1 hLookup
    have hMem : (name, value) ∈ result := by simp [hSplit]
    obtain ⟨next, hVisit, _⟩ := run_visited h hMem
    exact ⟨List.mem_map_of_mem hMem, next, hVisit⟩
  · rintro ⟨hName, next, hVisit⟩
    obtain ⟨pair, hPair, hSame⟩ := List.mem_map.1 hName
    obtain ⟨found, hFound⟩ := Option.isSome_iff_exists.1 (List.lookup_isSome_iff.2
      ⟨pair, hPair, beq_iff_eq.2 hSame.symm⟩)
    obtain ⟨front, back, hSplit, _⟩ := List.lookup_eq_some_iff.1 hFound
    have hMem : (name, found) ∈ result := by simp [hSplit]
    obtain ⟨_, hSameVisit, _⟩ := run_visited h hMem
    rw [hVisit] at hSameVisit
    cases hSameVisit
    exact hFound

/-- What a search collects is closed under its visits. -/
theorem closed_names (h : search.run starts = .ok result) :
    search.Closed fun name => name ∈ names result := by
  intro name value next hName hVisit n hn
  obtain ⟨pair, hPair, rfl⟩ := List.mem_map.1 hName
  obtain ⟨same, hSame, hNext⟩ := run_visited h hPair
  rw [hVisit] at hSame
  cases hSame
  exact hNext n hn

/-- **Order of the starts**: searches with the same visits, from the same names in any order,
both succeed or both fail, and collect the same. -/
theorem exists_run_of_starts {search twin : Worklist α ε} {starts others : List String}
    {result : List (String × α)} (hVisit : ∀ name, twin.visit name = search.visit name)
    (hStarts : ∀ name, name ∈ starts ↔ name ∈ others) (h : search.run starts = .ok result) :
    ∃ found, twin.run others = .ok found ∧ ∀ name, found.lookup name = result.lookup name := by
  have hClosed : twin.Closed fun name => name ∈ names result := by
    intro name value next hName hTwin
    exact closed_names h name value next hName (hVisit name ▸ hTwin)
  have hOthers : ∀ name ∈ others, name ∈ names result :=
    fun name hName => run_starts h name ((hStarts name).2 hName)
  cases hTwin : twin.run others with
  | error e =>
      obtain ⟨name, hName, hFails⟩ := run_error hTwin hClosed hOthers
      obtain ⟨pair, hPair, rfl⟩ := List.mem_map.1 hName
      obtain ⟨next, hOk, _⟩ := run_visited h hPair
      rw [hVisit, hOk] at hFails
      cases hFails
  | ok found =>
      have hNames : ∀ name, name ∈ names found ↔ name ∈ names result := by
        refine fun name => ⟨run_only hTwin hClosed hOthers name, ?_⟩
        have hBack : search.Closed fun name => name ∈ names found := by
          intro name value next hName hOk
          exact closed_names hTwin name value next hName (hVisit name ▸ hOk)
        exact run_only h hBack (fun n hn => run_starts hTwin n ((hStarts n).1 hn)) name
      refine ⟨found, rfl, fun name => Option.ext fun value => ?_⟩
      rw [lookup_eq_some hTwin, lookup_eq_some h, hNames, hVisit]

end Run

end WireSchema.Worklist
