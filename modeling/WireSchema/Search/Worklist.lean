import WireSchema.Search.Remaining

/-!
# Work-list search

A work list holds names that are still to be visited.  Visiting a name gives a value
for it and further names, or fails.  `Worklist.collect` visits the last name put on
the list first, skips names that already have a value, and collects the values in the
order of the visits; the first failure ends it.

The search ends on every input, because only names of a finite `domain` can be
visited and none is visited twice.
-/

namespace WireSchema

/-- How a search visits a name.  Visits succeed only inside a finite domain. -/
structure Worklist (α ε : Type) where
  domain : List String
  visit : String → Except ε (α × List String)
  mem_domain : ∀ {name found}, visit name = .ok found → name ∈ domain

namespace Worklist

variable {α ε : Type}

/-- Visits the names on `stack`, whose first one is the next, and adds what they give
to `found`. -/
def collect (search : Worklist α ε) (found : List (String × α)) :
    (stack : List String) → Except ε (List (String × α))
  | [] => .ok found
  | name :: rest =>
    if _seen : name ∈ found.map Prod.fst then search.collect found rest
    else
      match _visit : search.visit name with
      | .error e => .error e
      | .ok (value, next) => search.collect (found ++ [(name, value)]) (next.reverse ++ rest)
termination_by stack => ((remaining search.domain (found.map Prod.fst)).length, stack.length)
decreasing_by
  · exact Prod.Lex.right _ (Nat.lt_succ_self _)
  · refine Prod.Lex.left _ _ (length_remaining_lt (search.mem_domain _visit) _seen fun y => ?_)
    simp

/-- Everything reachable from `starts`, of which the last is visited first. -/
def run (search : Worklist α ε) (starts : List String) : Except ε (List (String × α)) :=
  search.collect [] starts.reverse

end Worklist

end WireSchema
