import WireSchema.Search.Remaining
import WireSchema.TypeGraph.Basic

/-!
# Dependency order

A depth-first search puts every type after the types it contains, and finds out when
that is impossible because types contain each other.  `depthFirst` is the search:
`path` is the chain of types it is inside of, outermost first, and `done` what it has
put in order so far.

## Definitions

* `TypeGraph.depthFirst`: the order, or a cycle as the path from a type back to itself.
* `TypeGraph.postOrder`: the order from some starting types; a graph with a cycle has
  none.
* `TypeGraph.declarationOrder`: the order from the roots sorted by name, which does not
  depend on how the request lists them.
-/

namespace WireSchema.TypeGraph

/-- The chain from `id` to the end of `path`, closed by `id` again. -/
def closeCycle (path : List TypeId) (id : TypeId) : List TypeId :=
  path.dropWhile (· != id) ++ [id]

/-- Puts the types of `pending` and all they contain after `done`, each once and after
what it contains. -/
def depthFirst (graph : TypeGraph) (path done : List TypeId) :
    (pending : List TypeId) → Except (List TypeId) (List TypeId)
  | [] => .ok done
  | id :: rest =>
    if _onPath : id ∈ path then .error (closeCycle path id)
    else if id ∈ done then graph.depthFirst path done rest
    else
      match _entry : graph.get? id with
      | none => graph.depthFirst path done rest
      | some entry =>
        match graph.depthFirst (path ++ [id]) done entry.dependencies with
        | .error cycle => .error cycle
        | .ok inner => graph.depthFirst path (inner ++ [id]) rest
termination_by pending => ((remaining graph.ids path).length, pending.length)
decreasing_by
  · exact Prod.Lex.right _ (Nat.lt_succ_self _)
  · exact Prod.Lex.right _ (Nat.lt_succ_self _)
  · exact Prod.Lex.left _ _
      (length_remaining_lt (graph.mem_ids_of_get? _entry) _onPath fun y => by simp)
  · exact Prod.Lex.right _ (Nat.lt_succ_self _)

/-- Everything reachable from `starts`, each type once and after all it contains.
Starting types are taken in the given order, nested types by name. -/
def postOrder (graph : TypeGraph) (starts : List TypeId) : List TypeId :=
  match graph.depthFirst [] [] starts with
  | .ok order => order
  | .error _ => []

/-- The name of the type of an id. -/
def nameOf (graph : TypeGraph) (id : TypeId) : String :=
  ((graph.get? id).map fun entry => entry.name).getD ""

/-- `ids` by increasing name. -/
def sortByName (graph : TypeGraph) (ids : List TypeId) : List TypeId :=
  ids.mergeSort fun a b => decide (graph.nameOf a ≤ graph.nameOf b)

/-- The order in which the types of the graph are declared. -/
def declarationOrder (graph : TypeGraph) : List TypeId :=
  graph.postOrder (graph.sortByName graph.roots)

end WireSchema.TypeGraph
