import WireSchema.Proofs.BoundedCompile
import WireSchema.Proofs.MarkPropagation

/-!
# Graphs of any resolver

`TypeGraph.build` takes its declarations from a table.  In general they come from a
*resolver*, which may have a declaration for every name, so that a search for the types that
the roots contain need not end.  What can be said then is what a search that ends has found:
`Discovers` is the discovery as a relation, one constructor for each thing that it can do
with the first name of its stack, and `TypeGraph.BuiltFrom` the building around it.

A discovery that ends has asked for finitely many names.  The answers make a table, and the
graph is the one built from that table; `BuiltFrom.exists_table` carries everything known of
such graphs over to every resolver.

## Main results

* `builtFrom_get?_iff`: from a table, `build` finds the graph exactly if there is one.
* `BuiltFrom.exists_table`: a graph built from a resolver has been built from a table of
  declarations that the resolver gives.
* `BuiltFrom.varLen_fixedPoint`: a type of the graph is marked exactly if it contains a
  variable-length array, and spreading marks, which ends on every graph, has marked it.
-/

namespace WireSchema

/-- What has the declarations of types, by name. -/
abbrev Resolver := String → Option Declaration

/-- The outline of the type of the given name, from what a resolver says of it. -/
def Outline.resolved (resolver : Resolver) (index : DirectiveIndex) (name : String) :
    Except CompileError Outline :=
  match resolver name with
  | none => .error (.unknownType name)
  | some declaration => do
    let members ← declaration.fields.mapM (Member.ofField index name)
    return ⟨name, declaration.kind, members⟩

/-- A discovery that has the outlines `found`, and the names on `stack` still to look at,
ends with the outlines `all`. -/
inductive Discovers (resolver : Resolver) (index : DirectiveIndex) :
    (found : List Outline) → (stack : List String) → (all : List Outline) → Prop
  | done {found : List Outline} : Discovers resolver index found [] found
  | skip {found all : List Outline} {name : String} {rest : List String} :
      name ∈ found.map Outline.name → Discovers resolver index found rest all →
      Discovers resolver index found (name :: rest) all
  | visit {found all : List Outline} {name : String} {rest : List String} {outline : Outline} :
      name ∉ found.map Outline.name → Outline.resolved resolver index name = .ok outline →
      Discovers resolver index (found ++ [outline]) (outline.nestedNames.reverse ++ rest) all →
      Discovers resolver index found (name :: rest) all

namespace TypeGraph

/-- The graph is built of the given roots: the discovery ends, no type contains itself, all
references lead somewhere, and the marks of the members have spread. -/
def BuiltFrom (resolver : Resolver) (index : DirectiveIndex) (roots : List String)
    (graph : TypeGraph) : Prop :=
  ∃ outlines order, Discovers resolver index [] roots.reverse outlines ∧
    (link outlines roots).checkAcyclic = .ok order ∧
    (link outlines roots).checkReferences = .ok () ∧
    graph = (link outlines roots).markOwn.propagate

end TypeGraph

/-! ## Discoveries from a table -/

section Discovery

variable {resolver : Resolver} {declarations : Declarations} {index : DirectiveIndex}

theorem Outline.name_of_resolved {name : String} {outline : Outline}
    (h : Outline.resolved resolver index name = .ok outline) : outline.name = name := by
  unfold resolved at h
  split at h
  · cases h
  · obtain ⟨members, _, hPure⟩ := bind_eq_ok.1 h
    rw [← pure_eq_ok.1 hPure]

theorem Outline.isSome_of_resolved {name : String} {outline : Outline}
    (h : Outline.resolved resolver index name = .ok outline) : (resolver name).isSome := by
  unfold resolved at h
  split at h
  · cases h
  · rename_i hDeclaration
    rw [hDeclaration]
    rfl

/-- An outline does not depend on the declarations of other names. -/
theorem Outline.resolved_congr {other : Resolver} {name : String}
    (h : resolver name = other name) :
    Outline.resolved resolver index name = Outline.resolved other index name := by
  rw [resolved, resolved, h]

/-- The names of some outlines, each with its outline. -/
def named (outlines : List Outline) : List (String × Outline) :=
  outlines.map fun outline => (outline.name, outline)

theorem names_named (outlines : List Outline) :
    Worklist.names (named outlines) = outlines.map Outline.name := by
  rw [Worklist.names, named, List.map_map]
  rfl

theorem snd_named (outlines : List Outline) : (named outlines).map Prod.snd = outlines := by
  rw [named, List.map_map]
  exact List.map_id _

theorem visit_eq_ok {name : String} {outline : Outline}
    (h : Outline.resolved declarations.get? index name = .ok outline) :
    (discovery declarations index).visit name = .ok (outline, outline.nestedNames) := by
  have hOutline : Outline.ofName declarations index name = .ok outline := h
  unfold discovery
  dsimp only
  rw [hOutline]

/-- What a discovery finds is all that it had and all that was on its stack, and every other
name comes from the resolver. -/
theorem Discovers.subset {found all : List Outline} {stack : List String}
    (h : Discovers resolver index found stack all) : found ⊆ all := by
  induction h with
  | done => exact fun _ hMem => hMem
  | skip _ _ ih => exact ih
  | visit _ _ _ ih => exact fun outline hMem => ih (List.mem_append_left _ hMem)

theorem Discovers.nodup_names {found all : List Outline} {stack : List String}
    (h : Discovers resolver index found stack all) (hFound : (found.map Outline.name).Nodup) :
    (all.map Outline.name).Nodup := by
  induction h with
  | done => exact hFound
  | skip _ _ ih => exact ih hFound
  | visit hNew hOutline _ ih =>
      refine ih ?_
      rw [List.map_append]
      refine hFound.append (List.nodup_singleton _) ?_
      rw [List.map_singleton, List.disjoint_singleton, Outline.name_of_resolved hOutline]
      exact hNew

/-- Whatever a discovery adds has been declared by the resolver. -/
theorem Discovers.isSome_of_mem {found all : List Outline} {stack : List String}
    (h : Discovers resolver index found stack all)
    (hFound : ∀ outline ∈ found, (resolver outline.name).isSome) :
    ∀ outline ∈ all, (resolver outline.name).isSome := by
  induction h with
  | done => exact hFound
  | skip _ _ ih => exact ih hFound
  | visit _ hOutline _ ih =>
      refine ih (List.forall_mem_append.2 ⟨hFound, ?_⟩)
      rw [List.forall_mem_singleton, Outline.name_of_resolved hOutline]
      exact Outline.isSome_of_resolved hOutline

/-- A discovery depends on what the resolver says of the names that it finds, and on nothing
else. -/
theorem Discovers.congr {other : Resolver} {found all : List Outline} {stack : List String}
    (h : Discovers resolver index found stack all)
    (hSame : ∀ outline ∈ all, resolver outline.name = other outline.name) :
    Discovers other index found stack all := by
  induction h with
  | done => exact .done
  | skip hSeen _ ih => exact .skip hSeen (ih hSame)
  | @visit found all name rest outline hNew hOutline hRest ih =>
      have hMem : outline ∈ all := hRest.subset (by simp)
      have hName := hSame outline hMem
      rw [Outline.name_of_resolved hOutline] at hName
      exact .visit hNew (Outline.resolved_congr hName ▸ hOutline) (ih hSame)

theorem named_append (found : List Outline) (outline : Outline) :
    named (found ++ [outline]) = named found ++ [(outline.name, outline)] :=
  List.map_append

/-- From a table, a discovery that ends is a work-list search that succeeds. -/
theorem Discovers.collect {found all : List Outline} {stack : List String}
    (h : Discovers declarations.get? index found stack all) :
    (discovery declarations index).collect (named found) stack = .ok (named all) := by
  induction h with
  | done => exact Worklist.collect_nil _
  | skip hSeen _ ih =>
      rw [← names_named] at hSeen
      rw [Worklist.collect_of_mem hSeen, ih]
  | visit hNew hOutline _ ih =>
      rw [← names_named] at hNew
      rw [Worklist.collect_of_notMem hNew, visit_eq_ok hOutline]
      rw [named_append, Outline.name_of_resolved hOutline] at ih
      exact ih

theorem discovers_of_collect {found : List Outline} {pairs result : List (String × Outline)}
    {stack : List String} (hPairs : pairs = named found)
    (h : (discovery declarations index).collect pairs stack = .ok result) :
    Discovers declarations.get? index found stack (result.map Prod.snd) := by
  induction pairs, stack using Worklist.collect.induct (discovery declarations index)
    generalizing found with
  | case1 pairs =>
      rw [Worklist.collect_nil] at h
      cases h
      rw [hPairs, snd_named]
      exact .done
  | case2 pairs name rest hSeen ih =>
      rw [Worklist.collect_of_mem hSeen] at h
      refine .skip ?_ (ih hPairs h)
      rw [← names_named, ← hPairs]
      exact hSeen
  | case3 pairs name rest hNew e hVisit =>
      rw [Worklist.collect_of_notMem hNew, hVisit] at h
      cases h
  | case4 pairs name rest hNew outline next hVisit ih =>
      rw [Worklist.collect_of_notMem hNew, hVisit] at h
      rw [List.unattach_reverse, List.unattach_attach] at ih
      obtain ⟨hOutline, rfl⟩ := TypeGraph.ofName_of_visit hVisit
      refine .visit ?_ hOutline (ih ?_ h)
      · rw [← names_named, ← hPairs]
        exact hNew
      · rw [named_append, ← hPairs, Outline.name_of_resolved hOutline]

/-- From a table, `discover` finds what a discovery that ends finds. -/
theorem discovers_iff_discover {roots : List String} {outlines : List Outline} :
    Discovers declarations.get? index [] roots.reverse outlines ↔
      discover declarations index roots = .ok outlines := by
  rw [discover, map_eq_ok]
  constructor
  · intro h
    exact ⟨named outlines, h.collect, snd_named outlines⟩
  · rintro ⟨found, hRun, rfl⟩
    exact discovers_of_collect rfl hRun

end Discovery

/-! ## Graphs from a table -/

/-- The declarations that a resolver gives for some names; names without one are left out. -/
def Declarations.answers (resolver : Resolver) (names : List String) : Declarations :=
  Table.ofList (names.filterMap fun name => (resolver name).map fun found => (name, found))

theorem Declarations.get?_answers {resolver : Resolver} {names : List String}
    (hNodup : names.Nodup) {name : String} {declaration : Declaration} :
    (answers resolver names).get? name = some declaration ↔
      name ∈ names ∧ resolver name = some declaration := by
  have hMem : (name, declaration) ∈ (names.filterMap fun name =>
      (resolver name).map fun found => (name, found)) ↔
        name ∈ names ∧ resolver name = some declaration := by
    simp only [List.mem_filterMap, Option.map_eq_some_iff, Prod.mk.injEq]
    constructor
    · rintro ⟨_, hName, _, hFound, rfl, rfl⟩
      exact ⟨hName, hFound⟩
    · rintro ⟨hName, hFound⟩
      exact ⟨name, hName, declaration, hFound, rfl, rfl⟩
  rw [← hMem]
  constructor
  · intro hGet
    exact (Table.of_get?_insertAll hGet).resolve_right (by simp)
  · refine Table.get?_ofList ?_
    rw [List.map_filterMap]
    refine hNodup.filterMap fun name other key hName hOther => ?_
    simp only [Option.map_map, Option.mem_def, Option.map_eq_some_iff, Function.comp]
      at hName hOther
    obtain ⟨_, _, rfl⟩ := hName
    obtain ⟨_, _, rfl⟩ := hOther
    rfl

namespace TypeGraph

variable {resolver : Resolver} {declarations : Declarations} {index : DirectiveIndex}
  {roots : List String} {graph : TypeGraph}

/-- **Building from a table** succeeds with a graph exactly if the graph is built from what the
table says. -/
theorem builtFrom_get?_iff :
    BuiltFrom declarations.get? index roots graph ↔
      build declarations index roots = .ok graph := by
  unfold BuiltFrom build
  constructor
  · rintro ⟨outlines, order, hDiscovers, hAcyclic, hReferences, rfl⟩
    rw [propagate_markOwn_link hAcyclic]
    exact bind_eq_ok.2 ⟨outlines, discovers_iff_discover.1 hDiscovers,
      bind_eq_ok.2 ⟨order, hAcyclic, bind_eq_ok.2 ⟨(), hReferences, rfl⟩⟩⟩
  · intro h
    obtain ⟨outlines, hDiscover, h⟩ := bind_eq_ok.1 h
    obtain ⟨order, hAcyclic, h⟩ := bind_eq_ok.1 h
    obtain ⟨_, hReferences, hPure⟩ := bind_eq_ok.1 h
    obtain rfl := pure_eq_ok.1 hPure
    exact ⟨outlines, order, discovers_iff_discover.2 hDiscover, hAcyclic, hReferences,
      (propagate_markOwn_link hAcyclic).symm⟩

/-- **A table of answers**: a graph built from a resolver is built from a table of
declarations that the resolver has given. -/
theorem BuiltFrom.exists_table (h : BuiltFrom resolver index roots graph) :
    ∃ declarations : Declarations,
      (∀ name declaration, declarations.get? name = some declaration →
        resolver name = some declaration) ∧
      build declarations index roots = .ok graph := by
  obtain ⟨outlines, order, hDiscovers, hChecks⟩ := h
  have hNodup := hDiscovers.nodup_names (by simp)
  have hKnown := hDiscovers.isSome_of_mem (by simp)
  refine ⟨.answers resolver (outlines.map Outline.name), fun name declaration hGet =>
    ((Declarations.get?_answers hNodup).1 hGet).2, ?_⟩
  refine builtFrom_get?_iff.1 ⟨outlines, order, hDiscovers.congr fun outline hMem => ?_, hChecks⟩
  obtain ⟨declaration, hDeclaration⟩ := Option.isSome_iff_exists.1 (hKnown outline hMem)
  rw [hDeclaration, (Declarations.get?_answers hNodup).2
    ⟨List.mem_map_of_mem hMem, hDeclaration⟩]

/-- A graph depends on what the resolver says of its types, and on nothing else. -/
theorem BuiltFrom.congr {other : Resolver} (h : BuiltFrom resolver index roots graph)
    (hSame : ∀ entry ∈ graph.entries, resolver entry.name = other entry.name) :
    BuiltFrom other index roots graph := by
  obtain ⟨outlines, order, hDiscovers, hAcyclic, hReferences, rfl⟩ := h
  refine ⟨outlines, order, hDiscovers.congr fun outline hMem => ?_, hAcyclic, hReferences, rfl⟩
  obtain ⟨id, hid⟩ := List.mem_iff_getElem?.1 hMem
  rw [propagate_markOwn_link hAcyclic] at hSame
  exact hSame _ (mem_entries_iff.2 ⟨id, get?_markVarLen_link.2 ⟨outline, hid, rfl⟩⟩)

/-! ## The mark of a built graph -/

theorem hasVarLenMember_eq_true_iff {outline : Outline} :
    outline.hasVarLenMember = true ↔ ∃ member ∈ outline.members, ∃ lengthField,
      .varLenArray lengthField ∈ member.directives := by
  simp only [Outline.hasVarLenMember, List.any_eq_true, Member.isSome_lengthField?_iff]

/-- A type of a built graph is marked if it has or contains a variable-length array. -/
theorem BuiltFrom.varLen_iff_reaches (h : BuiltFrom resolver index roots graph) {id : TypeId}
    {entry : TypeEntry} (hEntry : graph.get? id = some entry) :
    entry.varLen = true ↔ graph.ReachesVarLen id := by
  obtain ⟨outlines, order, _, hAcyclic, _, rfl⟩ := h
  rw [propagate_markOwn_link hAcyclic] at hEntry ⊢
  obtain ⟨hArranged, hAll⟩ := arranged_of_checkAcyclic hAcyclic
  rw [reachesVarLen_markVarLen, ← mem_varLenIds_iff hArranged hAll]
  rw [get?_markVarLen, Option.map_eq_some_iff] at hEntry
  obtain ⟨linked, _, rfl⟩ := hEntry
  exact List.contains_iff_mem

/-- **The variable-length mark** is the exact fixed point: a type of a built graph has it
exactly if the type, or one reached from it over dependencies, has a member with a
variable-length array.  Spreading gives this graph from the marks of the members alone.  Of
every graph, built or not, it changes the marks and nothing else, and it ends within as many
steps as there are types. -/
theorem BuiltFrom.varLen_fixedPoint (h : BuiltFrom resolver index roots graph) :
    (∀ id entry, graph.get? id = some entry →
      (entry.varLen = true ↔ ∃ inner nested,
        (inner = id ∨ Relation.TransGen graph.Links id inner) ∧
          graph.get? inner = some nested ∧
          ∃ member ∈ nested.members, ∃ lengthField,
            .varLenArray lengthField ∈ member.directives)) ∧
      (∃ before : TypeGraph, graph = before.propagate ∧
        ∀ entry ∈ before.entries, entry.varLen = entry.hasVarLenMember) ∧
      ∀ before : TypeGraph, ∃ steps ≤ before.size, ∃ ids,
        Spreading.advance^[steps] (Spreading.start before) = ⟨before.propagate, []⟩ ∧
          before.propagate = before.markVarLen ids := by
  refine ⟨fun id entry hEntry => ?_, ?_, fun before => ?_⟩
  · rw [h.varLen_iff_reaches hEntry, ReachesVarLen]
    simp only [Relation.reflTransGen_iff_eq_or_transGen, hasVarLenMember_eq_true_iff]
  · obtain ⟨outlines, order, _, _, _, rfl⟩ := h
    refine ⟨(link outlines roots).markOwn, rfl, fun entry hEntry => ?_⟩
    obtain ⟨linked, _, rfl⟩ := List.mem_map.1 hEntry
    rfl
  · obtain ⟨steps, hSteps, hRun⟩ := (Spreading.start before).iterate_advance
    rw [Spreading.cost_start] at hSteps
    exact ⟨steps, hSteps, _, hRun, propagate_eq before⟩

end TypeGraph

namespace Sample

/-- Two types with the same items, in one that holds them both. -/
def diamond : Declarations :=
  Table.ofList
    [ ("chreTestAll", ⟨.struct,
        [⟨"second", ⟨"struct chreTestTail", .plain⟩⟩, ⟨"first", ⟨"struct chreTestHead", .plain⟩⟩]⟩)
    , ("chreTestHead", ⟨.struct, [⟨"items", ⟨"struct chreTestItems", .plain⟩⟩]⟩)
    , ("chreTestItems", ⟨.struct,
        [⟨"count", ⟨"uint8_t", .plain⟩⟩, ⟨"items", ⟨"const uint8_t", .pointer⟩⟩]⟩)
    , ("chreTestTail", ⟨.struct,
        [⟨"more", ⟨"struct chreTestItems", .plain⟩⟩, ⟨"flag", ⟨"uint8_t", .plain⟩⟩]⟩) ]

def diamondIndex : DirectiveIndex :=
  ⟨[⟨"chreTestItems", "items", .varLenArray "count"⟩]⟩

/-- A resolver for which every other name has a type, with one more type in it, without end. -/
def openResolver : Resolver := fun name =>
  some ((diamond.get? name).getD ⟨.struct, [⟨"next", ⟨"struct " ++ name ++ "Next", .plain⟩⟩]⟩)

def diamondGraph : TypeGraph :=
  (TypeGraph.buildWithin 20 diamond diamondIndex ["chreTestAll"]).getD default

theorem built_diamond :
    TypeGraph.BuiltFrom openResolver diamondIndex ["chreTestAll"] diamondGraph := by
  have hBuilt : TypeGraph.buildWithin 20 diamond diamondIndex ["chreTestAll"] =
      some diamondGraph := by decide +kernel
  refine (TypeGraph.builtFrom_get?_iff.2 (TypeGraph.build_of_buildWithin hBuilt)).congr ?_
  decide +kernel

/-- The items mark both types that they are nested in, and these the type around them. -/
theorem diamond_marked :
    TypeGraph.BuiltFrom openResolver diamondIndex ["chreTestAll"] diamondGraph ∧
      ∃ entry, diamondGraph.get? 0 = some entry ∧ entry.varLen = true := by
  refine ⟨built_diamond, (diamondGraph.get? 0).getD default, by decide +kernel, ?_⟩
  refine (built_diamond.varLen_fixedPoint.1 0 _ (by decide +kernel)).2
    ⟨2, (diamondGraph.get? 2).getD default, .inr ?_, by decide +kernel, ?_⟩
  · have hHead : diamondGraph.Links 0 1 :=
      ⟨(diamondGraph.get? 0).getD default, by decide +kernel⟩
    have hItems : diamondGraph.Links 1 2 :=
      ⟨(diamondGraph.get? 1).getD default, by decide +kernel⟩
    exact .tail (.single hHead) hItems
  · exact ⟨⟨"items", ⟨"const uint8_t", .pointer⟩, [.varLenArray "count"]⟩, by decide +kernel,
      "count", by decide⟩

end Sample

end WireSchema
