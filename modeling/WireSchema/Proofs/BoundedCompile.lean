import WireSchema.Compile.Program
import WireSchema.Proofs.DependencyOrder
import WireSchema.Proofs.WorklistSearch

/-!
# Compiling within a bound

The searches of a compile end on every input, but the reason is an argument about the
whole input, and nothing that has to go through it can be computed by unfolding.  The
searches here take a number of steps instead and give nothing when it is used up; they
also give nothing on failure, and where names would have to be sorted.  What they do
give is what the searches without a bound give.

## Main results

* `Worklist.collect_of_collectWithin`, `TypeGraph.depthFirst_of_depthFirstWithin`: the
  searches.
* `compile_of_compileWithin`: a program that is found within a bound is the result of the
  compile.
-/

namespace WireSchema

theorem eq_ok_of_toOption {ε α : Type} {x : Except ε α} {a : α} (h : x.toOption = some a) :
    x = .ok a := by
  cases x with
  | ok b => exact congrArg Except.ok (Option.some.inj h)
  | error e => cases h

theorem eq_ok_getD {ε α : Type} {x : Except ε α} {default : α} (h : x.toOption.isSome = true) :
    x = .ok (x.toOption.getD default) := by
  obtain ⟨a, ha⟩ := Option.isSome_iff_exists.1 h
  rw [ha]
  exact eq_ok_of_toOption ha

/-! ## Searches -/

namespace Worklist

variable {α ε : Type} {search : Worklist α ε}

/-- `collect` in fewer than `fuel` steps. -/
def collectWithin (search : Worklist α ε) :
    (fuel : Nat) → List (String × α) → List String → Option (List (String × α))
  | 0, _, _ => none
  | _ + 1, found, [] => some found
  | fuel + 1, found, name :: rest =>
    if name ∈ found.map Prod.fst then search.collectWithin fuel found rest
    else do
      let (value, next) ← (search.visit name).toOption
      search.collectWithin fuel (found ++ [(name, value)]) (next.reverse ++ rest)

theorem collect_of_collectWithin {fuel : Nat} {found result : List (String × α)}
    {stack : List String} (h : search.collectWithin fuel found stack = some result) :
    search.collect found stack = .ok result := by
  induction fuel generalizing found stack with
  | zero => cases h
  | succ fuel ih =>
      cases stack with
      | nil =>
          rw [collect_nil]
          exact congrArg Except.ok (Option.some.inj h)
      | cons name rest =>
          rw [collectWithin] at h
          split at h
          · rename_i hSeen
            rw [collect_of_mem hSeen]
            exact ih h
          · rename_i hNew
            obtain ⟨given, hVisit, hRest⟩ := Option.bind_eq_some_iff.1 h
            rw [collect_of_notMem hNew, eq_ok_of_toOption hVisit]
            exact ih hRest

end Worklist

namespace TypeGraph

variable {graph : TypeGraph}

/-- `depthFirst` with calls and steps in a chain of fewer than `fuel`. -/
def depthFirstWithin (graph : TypeGraph) :
    (fuel : Nat) → (path done pending : List TypeId) → Option (List TypeId)
  | 0, _, _, _ => none
  | _ + 1, _, done, [] => some done
  | fuel + 1, path, done, id :: rest =>
    if id ∈ path then none
    else if id ∈ done then graph.depthFirstWithin fuel path done rest
    else
      match graph.get? id with
      | none => graph.depthFirstWithin fuel path done rest
      | some entry => do
        let inner ← graph.depthFirstWithin fuel (path ++ [id]) done entry.dependencies
        graph.depthFirstWithin fuel path (inner ++ [id]) rest

theorem depthFirst_of_depthFirstWithin {fuel : Nat} {path done pending order : List TypeId}
    (h : graph.depthFirstWithin fuel path done pending = some order) :
    graph.depthFirst path done pending = .ok order := by
  induction fuel generalizing path done pending order with
  | zero => cases h
  | succ fuel ih =>
      cases pending with
      | nil =>
          rw [depthFirst_nil]
          exact congrArg Except.ok (Option.some.inj h)
      | cons id rest =>
          rw [depthFirstWithin] at h
          split at h
          · cases h
          · rename_i hPath
            split at h
            · rename_i hDone
              rw [depthFirst_of_mem_done hPath hDone]
              exact ih h
            · rename_i hDone
              split at h
              · rename_i hNone
                rw [depthFirst_of_get?_eq_none hPath hDone hNone]
                exact ih h
              · rename_i entry hEntry
                obtain ⟨inner, hInner, hRest⟩ := Option.bind_eq_some_iff.1 h
                rw [depthFirst_of_get? hPath hDone hEntry, ih hInner]
                exact ih hRest

/-- What linking sees of outlines that are in the order of their names. -/
def linkablesInOrder (outlines : List Outline) : List Linkable :=
  outlines.zipIdx.map fun (outline, id) => ⟨id, outline.name, outline.nestedNames⟩

/-- The links between outlines that are in the order of their names. -/
def linkInOrder (outlines : List Outline) (roots : List String) : TypeGraph where
  entries := outlines.map (linkedEntry (linkablesInOrder outlines))
  roots := roots.filterMap fun root => outlines.findIdx? fun outline => outline.name == root

theorem link_of_sorted {outlines : List Outline} {roots : List String}
    (h : outlines.Pairwise fun a b => a.name ≤ b.name) :
    link outlines roots = linkInOrder outlines roots := by
  have hPairs : (linkablesInOrder outlines).Pairwise fun a b => decide (a.name ≤ b.name) := by
    have hNames : (linkablesInOrder outlines).map Linkable.name = outlines.map fun o => o.name := by
      conv_rhs => rw [← List.zipIdx_map_fst 0 outlines, List.map_map]
      exact List.map_map
    have hPairs : ((linkablesInOrder outlines).map Linkable.name).Pairwise (· ≤ ·) :=
      hNames ▸ List.pairwise_map.2 h
    exact (List.pairwise_map.1 hPairs).imp fun hLe => decide_eq_true hLe
  have hSorted : linkables outlines = linkablesInOrder outlines :=
    List.mergeSort_of_pairwise hPairs
  unfold link linkInOrder
  rw [hSorted]

/-- Linking sees outlines in the order of their names. -/
theorem pairwise_le_linkables (outlines : List Outline) :
    (linkables outlines).Pairwise fun a b => decide (a.name ≤ b.name) := by
  apply List.pairwise_mergeSort
  · intro a b c hab hbc
    exact decide_eq_true (String.le_trans (of_decide_eq_true hab) (of_decide_eq_true hbc))
  · intro a b
    simpa using String.le_total a.name b.name

/-- What linking sees of outlines in any order, if `ordered` puts it in the order of names. -/
theorem linkables_of_perm {outlines : List Outline} {ordered : List Linkable}
    (hPerm : (linkablesInOrder outlines).Perm ordered)
    (hSorted : ordered.Pairwise fun a b => a.name < b.name) : linkables outlines = ordered := by
  have hLe : ordered.Pairwise fun a b => decide (a.name ≤ b.name) :=
    hSorted.imp fun hLt => decide_eq_true (String.not_lt.1 (String.lt_asymm hLt))
  have hPairs := pairwise_le_linkables outlines
  have hSame : (linkables outlines).Perm ordered := (List.mergeSort_perm _ _).trans hPerm
  refine hSame.eq_of_pairwise (fun a b ha hb hab hba => ?_) hPairs hLe
  -- No two of them have the same name, so those of equal rank are the same.
  have hName : a.name = b.name :=
    String.le_antisymm (of_decide_eq_true hab) (of_decide_eq_true hba)
  have hNodup : (ordered.map Linkable.name).Nodup := by
    refine List.pairwise_map.2 (hSorted.imp fun hLt hSame => ?_)
    exact String.lt_irrefl _ (hSame ▸ hLt)
  exact List.inj_on_of_nodup_map hNodup (hSame.mem_iff.1 ha) hb hName

/-- The order of a graph whose roots are in the order of their names. -/
theorem orders_of_depthFirstWithin {fuel : Nat} {order : List TypeId}
    (hSorted : graph.roots.Pairwise fun a b => graph.nameOf a ≤ graph.nameOf b)
    (h : graph.depthFirstWithin fuel [] [] graph.roots = some order) :
    graph.postOrder graph.roots = order ∧ graph.declarationOrder = order := by
  have hPost : graph.postOrder graph.roots = order := by
    unfold postOrder
    rw [depthFirst_of_depthFirstWithin h]
  refine ⟨hPost, ?_⟩
  unfold declarationOrder sortByName
  rw [List.mergeSort_of_pairwise (hSorted.imp fun hLe => decide_eq_true hLe)]
  exact hPost

/-- A graph is built by a bounded discovery and a bounded search for an order. -/
theorem build_of_link {fuel : Nat} {declarations : Declarations} {index : DirectiveIndex}
    {roots : List String} {found : List (String × Outline)} {linked : TypeGraph}
    {order : List TypeId}
    (hFound : (discovery declarations index).collectWithin fuel [] roots.reverse = some found)
    (hLinked : link (found.map Prod.snd) roots = linked)
    (hOrder : linked.depthFirstWithin fuel [] [] linked.ids = some order)
    (hChecks : linked.checkReferences = .ok ()) :
    build declarations index roots = .ok (linked.markVarLen (linked.varLenIds order)) := by
  have hDiscover : discover declarations index roots = .ok (found.map Prod.snd) := by
    unfold discover Worklist.run
    rw [Worklist.collect_of_collectWithin hFound]
    rfl
  unfold build
  refine bind_eq_ok.2 ⟨_, hDiscover, ?_⟩
  rw [hLinked]
  refine bind_eq_ok.2 ⟨order, ?_, bind_eq_ok.2 ⟨(), hChecks, rfl⟩⟩
  unfold checkAcyclic
  rw [depthFirst_of_depthFirstWithin hOrder]
  rfl

/-- `build` in a bounded number of steps. -/
def buildWithin (fuel : Nat) (declarations : Declarations) (index : DirectiveIndex)
    (roots : List String) : Option TypeGraph := do
  let found ← (discovery declarations index).collectWithin fuel [] roots.reverse
  let outlines := found.map Prod.snd
  if outlines.Pairwise fun a b => a.name ≤ b.name then
    let graph := linkInOrder outlines roots
    let order ← graph.depthFirstWithin fuel [] [] graph.ids
    graph.checkReferences.toOption
    return graph.markVarLen (graph.varLenIds order)
  else none

theorem build_of_buildWithin {fuel : Nat} {declarations : Declarations} {index : DirectiveIndex}
    {roots : List String} (h : buildWithin fuel declarations index roots = some graph) :
    build declarations index roots = .ok graph := by
  obtain ⟨found, hFound, h⟩ := Option.bind_eq_some_iff.1 h
  dsimp only at h
  split at h
  · rename_i hSorted
    obtain ⟨order, hOrder, h⟩ := Option.bind_eq_some_iff.1 h
    obtain ⟨_, hChecks, h⟩ := Option.bind_eq_some_iff.1 h
    rw [build_of_link hFound (link_of_sorted hSorted) hOrder (eq_ok_of_toOption hChecks)]
    exact congrArg Except.ok (Option.some.inj h)
  · cases h

end TypeGraph

/-! ## Programs -/

/-- `programOf` in a bounded number of steps. -/
def programWithin (fuel : Nat) (graph : TypeGraph) (index : DirectiveIndex) (settings : Settings)
    (request : Request) : Option Program := do
  if graph.rootEntries.any fun entry => entry.isUnion then none
  else if graph.roots.Pairwise fun a b => graph.nameOf a ≤ graph.nameOf b then
    let naming := Naming.forService graph index settings request.service
    let order ← graph.depthFirstWithin fuel [] [] graph.roots
    let entries := graph.entriesOf order
    let types ← (entries.mapM naming.packedType).toOption
    let varLenRoots := graph.rootEntries.filter TypeEntry.varLen
    let found ← naming.sizeSearch.collectWithin fuel []
      (varLenRoots.map fun entry => entry.name).reverse
    let needed := entries.filterMap fun entry =>
      (found.lookup entry.name).map fun terms => (entry.name, terms)
    let sizeFunctions ←
      (needed.mapM fun (source, terms) => naming.sizeFunction source terms).toOption
    let encodeFunctions ←
      ((entries.filter fun entry => !entry.isUnion).mapM naming.encodeFunction).toOption
    let entryPoints ← (graph.rootEntries.mapM naming.entryPoint).toOption
    return {
      service := request.service
      includes := request.includes
      roots := request.roots
      types, sizeFunctions, encodeFunctions, entryPoints }
  else none

theorem programOf_of_programWithin {fuel : Nat} {graph : TypeGraph} {index : DirectiveIndex}
    {settings : Settings} {request : Request} {program : Program}
    (h : programWithin fuel graph index settings request = some program) :
    programOf graph index settings request = .ok program := by
  unfold programWithin at h
  split at h
  · cases h
  rename_i hUnions
  split at h
  case isFalse => cases h
  rename_i hSorted
  obtain ⟨order, hOrder, h⟩ := Option.bind_eq_some_iff.1 h
  obtain ⟨hPost, hDeclared⟩ := TypeGraph.orders_of_depthFirstWithin hSorted hOrder
  obtain ⟨types, hTypes, h⟩ := Option.bind_eq_some_iff.1 h
  obtain ⟨found, hFound, h⟩ := Option.bind_eq_some_iff.1 h
  obtain ⟨sizeFunctions, hSizes, h⟩ := Option.bind_eq_some_iff.1 h
  obtain ⟨encodeFunctions, hFunctions, h⟩ := Option.bind_eq_some_iff.1 h
  obtain ⟨entryPoints, hPoints, h⟩ := Option.bind_eq_some_iff.1 h
  unfold programOf
  rw [List.find?_eq_none.2 fun entry hEntry hUnion =>
    hUnions (List.any_eq_true.2 ⟨entry, hEntry, hUnion⟩)]
  refine bind_eq_ok.2 ⟨types, ?_, bind_eq_ok.2 ⟨sizeFunctions, ?_,
    bind_eq_ok.2 ⟨encodeFunctions, ?_, bind_eq_ok.2 ⟨entryPoints, eq_ok_of_toOption hPoints, ?_⟩⟩⟩⟩
  · unfold Naming.packedTypes
    show (graph.entriesOf graph.declarationOrder).mapM _ = _
    rw [hDeclared]
    exact eq_ok_of_toOption hTypes
  · refine bind_eq_ok.2 ⟨found, Worklist.collect_of_collectWithin hFound, ?_⟩
    show List.mapM _ (List.filterMap _ (graph.entriesOf (graph.postOrder graph.roots))) = _
    rw [hPost]
    exact eq_ok_of_toOption hSizes
  · unfold Naming.encodeFunctions
    show List.mapM _ (List.filter _ (graph.entriesOf (graph.postOrder graph.roots))) = _
    rw [hPost]
    exact eq_ok_of_toOption hFunctions
  · exact congrArg Except.ok (Option.some.inj h)

/-- `compile` in a bounded number of steps. -/
def compileWithin (fuel : Nat) (declarations : Declarations) (index : DirectiveIndex)
    (settings : Settings) (request : Request) : Option Program := do
  let graph ← TypeGraph.buildWithin fuel declarations index request.roots
  programWithin fuel graph index settings request

/-- **Bounded compiles**: a program found within a bound is what the request compiles to. -/
theorem compile_of_compileWithin {fuel : Nat} {declarations : Declarations}
    {index : DirectiveIndex} {settings : Settings} {request : Request} {program : Program}
    (h : compileWithin fuel declarations index settings request = some program) :
    compile declarations index settings request = .ok program := by
  obtain ⟨graph, hGraph, hProgram⟩ := Option.bind_eq_some_iff.1 h
  exact bind_eq_ok.2 ⟨graph, TypeGraph.build_of_buildWithin hGraph,
    programOf_of_programWithin hProgram⟩

/-- The program found within a bound, where there is one. -/
theorem compile_getD {fuel : Nat} {declarations : Declarations} {index : DirectiveIndex}
    {settings : Settings} {request : Request}
    (h : (compileWithin fuel declarations index settings request).isSome) :
    compile declarations index settings request =
      .ok ((compileWithin fuel declarations index settings request).getD default) := by
  obtain ⟨program, hProgram⟩ := Option.isSome_iff_exists.1 h
  rw [hProgram]
  exact compile_of_compileWithin hProgram

end WireSchema
