import WireSchema.Proofs.DependencyOrder
import WireSchema.Proofs.NameLookup
import WireSchema.Proofs.WorklistSearch
import WireSchema.TypeGraph.Build

/-!
# What a built type graph is

`TypeGraph.Sound` lists what every later stage relies on: the types of the graph have
distinct names and are declared, whatever a member names is in the graph, nested types
are linked, the types can be arranged, and the variable-length mark is the one that the
members force.

## Main results

* `TypeGraph.sound_of_build`: a graph that was built is sound.
-/

namespace WireSchema

/-- A field with the directives that an index has for it. -/
def Member.annotated (index : DirectiveIndex) (owner : String) (field : Field) : Member :=
  ⟨field.name, field.type, index.lookup owner field.name⟩

/-- The members of a declared type, as a graph holds them. -/
def Declaration.members (declaration : Declaration) (index : DirectiveIndex) (name : String) :
    List Member :=
  declaration.fields.map (Member.annotated index name)

/-- An outline says what the declaration of its name says. -/
def Outline.Declared (declarations : Declarations) (index : DirectiveIndex)
    (outline : Outline) : Prop :=
  ∃ declaration, declarations.get? outline.name = some declaration ∧
    outline.kind = declaration.kind ∧ outline.members = declaration.members index outline.name

theorem Member.isSome_typeOverride?_iff {member : Member} :
    member.typeOverride?.isSome = true ↔ ∃ spec, .overrideType spec ∈ member.directives := by
  unfold Member.typeOverride?
  rw [List.findSome?_isSome_iff]
  constructor
  · rintro ⟨directive, hMem, hSome⟩
    cases directive <;> first | exact ⟨_, hMem⟩ | cases hSome
  · rintro ⟨spec, hMem⟩
    exact ⟨_, hMem, rfl⟩

theorem Member.isSome_lengthField?_iff {member : Member} :
    member.lengthField?.isSome = true ↔
      ∃ lengthField, .varLenArray lengthField ∈ member.directives := by
  unfold Member.lengthField?
  rw [List.findSome?_isSome_iff]
  constructor
  · rintro ⟨directive, hMem, hSome⟩
    cases directive <;> first | exact ⟨_, hMem⟩ | cases hSome
  · rintro ⟨lengthField, hMem⟩
    exact ⟨_, hMem, rfl⟩

namespace TypeGraph

/-- What building a graph establishes. -/
structure Sound (declarations : Declarations) (index : DirectiveIndex) (roots : List String)
    (graph : TypeGraph) : Prop where
  nodup_names : (graph.entries.map fun entry => entry.name).Nodup
  declared : ∀ entry ∈ graph.entries, entry.toOutline.Declared declarations index
  nested : ∀ entry ∈ graph.entries, ∀ name ∈ entry.nestedNames,
    ∃ other ∈ graph.entries, other.name = name
  mem_dependencies : ∀ entry ∈ graph.entries, ∀ d other, graph.get? d = some other →
    (d ∈ entry.dependencies ↔ other.name ∈ entry.nestedNames)
  varLen_iff : ∀ entry ∈ graph.entries, entry.varLen = true ↔
    entry.hasVarLenMember = true ∨
      ∃ d ∈ entry.dependencies, ∃ other, graph.get? d = some other ∧ other.varLen = true
  arranged : ∃ order, graph.Arranged order ∧ ∀ id entry, graph.get? id = some entry → id ∈ order
  root_ids : List.Forall₂ (fun id root => ∃ entry, graph.get? id = some entry ∧ entry.name = root)
    graph.roots roots

/-! ## Discovery -/

theorem annotated_of_ofField {index : DirectiveIndex} {owner : String} {field : Field}
    {member : Member} (h : Member.ofField index owner field = .ok member) :
    member = Member.annotated index owner field := by
  unfold Member.ofField at h
  dsimp only at h
  split at h
  · exact (Except.ok.inj h).symm
  · cases h

theorem declared_of_ofName {declarations : Declarations} {index : DirectiveIndex} {name : String}
    {outline : Outline} (h : Outline.ofName declarations index name = .ok outline) :
    outline.name = name ∧ outline.Declared declarations index := by
  unfold Outline.ofName at h
  split at h
  · cases h
  · rename_i declaration hGet
    obtain ⟨members, hMembers, hPure⟩ := bind_eq_ok.1 h
    obtain rfl := pure_eq_ok.1 hPure
    refine ⟨rfl, declaration, hGet, rfl, ?_⟩
    have hAll := mapM_eq_ok.1 hMembers
    show members = declaration.fields.map _
    rw [← List.forall₂_eq_eq_eq, List.forall₂_map_right_iff]
    exact hAll.flip.imp fun _ _ hMember => annotated_of_ofField hMember

theorem ofName_of_visit {declarations : Declarations} {index : DirectiveIndex} {name : String}
    {outline : Outline} {next : List String}
    (h : (discovery declarations index).visit name = .ok (outline, next)) :
    Outline.ofName declarations index name = .ok outline ∧ next = outline.nestedNames := by
  unfold discovery at h
  dsimp only at h
  split at h
  · rename_i found hFound
    cases h
    exact ⟨hFound, rfl⟩
  · cases h

/-- The outlines of a discovery: distinct, declared, with all they contain and the roots. -/
structure Discovered (declarations : Declarations) (index : DirectiveIndex) (roots : List String)
    (outlines : List Outline) : Prop where
  nodup_names : (outlines.map Outline.name).Nodup
  declared : ∀ outline ∈ outlines, outline.Declared declarations index
  nested : ∀ outline ∈ outlines, ∀ name ∈ outline.nestedNames,
    ∃ other ∈ outlines, other.name = name
  roots_mem : ∀ root ∈ roots, ∃ outline ∈ outlines, outline.name = root

theorem discovered_of_discover {declarations : Declarations} {index : DirectiveIndex}
    {roots : List String} {outlines : List Outline}
    (h : discover declarations index roots = .ok outlines) :
    Discovered declarations index roots outlines := by
  obtain ⟨found, hRun, rfl⟩ := map_eq_ok.1 h
  have hEntry : ∀ name outline, (name, outline) ∈ found →
      outline.name = name ∧ outline.Declared declarations index ∧
        ∀ n ∈ outline.nestedNames, n ∈ Worklist.names found := by
    intro name outline hMem
    obtain ⟨next, hVisit, hNext⟩ := Worklist.run_visited hRun hMem
    obtain ⟨hOutline, rfl⟩ := ofName_of_visit hVisit
    obtain ⟨hName, hDeclared⟩ := declared_of_ofName hOutline
    exact ⟨hName, hDeclared, hNext⟩
  have hNames : (found.map Prod.snd).map Outline.name = Worklist.names found := by
    rw [List.map_map]
    exact List.map_congr_left fun pair hPair => (hEntry pair.1 pair.2 hPair).1
  have hFind : ∀ n ∈ Worklist.names found, ∃ outline ∈ found.map Prod.snd, outline.name = n := by
    intro n hn
    rw [← hNames] at hn
    exact List.mem_map.1 hn
  refine ⟨?_, ?_, ?_, ?_⟩
  · rw [hNames]
    exact Worklist.run_nodup hRun
  · intro outline hOutline
    obtain ⟨pair, hPair, rfl⟩ := List.mem_map.1 hOutline
    exact (hEntry pair.1 pair.2 hPair).2.1
  · intro outline hOutline name hName
    obtain ⟨pair, hPair, rfl⟩ := List.mem_map.1 hOutline
    exact hFind name ((hEntry pair.1 pair.2 hPair).2.2 name hName)
  · intro root hRoot
    exact hFind root (Worklist.run_starts hRun root hRoot)

/-! ## Links -/

theorem mem_linkables {outlines : List Outline} {linkable : Linkable} :
    linkable ∈ linkables outlines ↔
      ∃ outline, outlines[linkable.id]? = some outline ∧ linkable.name = outline.name ∧
        linkable.nested = outline.nestedNames := by
  unfold linkables
  rw [List.mem_mergeSort, List.mem_map]
  constructor
  · rintro ⟨⟨outline, id⟩, hMem, rfl⟩
    exact ⟨outline, List.mk_mem_zipIdx_iff_getElem?.1 hMem, rfl, rfl⟩
  · obtain ⟨id, name, nested⟩ := linkable
    rintro ⟨outline, hGet, rfl, rfl⟩
    exact ⟨(outline, id), List.mk_mem_zipIdx_iff_getElem?.2 hGet, rfl⟩

theorem mem_dependencies_linkedEntry {outlines : List Outline} {outline : Outline} {d : TypeId} :
    d ∈ (linkedEntry (linkables outlines) outline).dependencies ↔
      ∃ other, outlines[d]? = some other ∧ other.name ∈ outline.nestedNames := by
  show d ∈ ((linkables outlines).filter _).map Linkable.id ↔ _
  simp only [List.mem_map, List.mem_filter, List.contains_iff_mem]
  constructor
  · rintro ⟨linkable, ⟨hMem, hName⟩, rfl⟩
    obtain ⟨other, hGet, hEq, _⟩ := mem_linkables.1 hMem
    exact ⟨other, hGet, hEq ▸ hName⟩
  · rintro ⟨other, hGet, hName⟩
    exact ⟨⟨d, other.name, other.nestedNames⟩,
      ⟨mem_linkables.2 ⟨other, hGet, rfl, rfl⟩, hName⟩, rfl⟩

theorem get?_link {outlines : List Outline} {roots : List String} {id : TypeId} :
    (link outlines roots).get? id =
      (outlines[id]?).map (linkedEntry (linkables outlines)) :=
  List.getElem?_map

theorem get?_link_of_getElem? {outlines : List Outline} {roots : List String} {id : TypeId}
    {outline : Outline} (h : outlines[id]? = some outline) :
    (link outlines roots).get? id = some (linkedEntry (linkables outlines) outline) := by
  rw [get?_link, h]
  rfl

/-- The roots of a linked graph, one for one. -/
theorem root_ids_link {outlines : List Outline} {roots : List String}
    (h : ∀ root ∈ roots, ∃ outline ∈ outlines, outline.name = root) :
    List.Forall₂
      (fun id root => ∃ entry, (link outlines roots).get? id = some entry ∧ entry.name = root)
      (link outlines roots).roots roots := by
  have hRoot : ∀ root ∈ roots, ∃ id outline,
      outlines.findIdx? (fun outline => outline.name == root) = some id ∧
        outlines[id]? = some outline ∧ outline.name = root := by
    intro root hRoot
    obtain ⟨outline, hMem, hName⟩ := h root hRoot
    have hSome : (outlines.findIdx? fun outline => outline.name == root).isSome := by
      rw [List.findIdx?_isSome, List.any_eq_true]
      exact ⟨outline, hMem, by simpa using hName⟩
    obtain ⟨id, hid⟩ := Option.isSome_iff_exists.1 hSome
    obtain ⟨hLt, hAt, _⟩ := List.findIdx?_eq_some_iff_getElem.1 hid
    exact ⟨id, outlines[id], hid, List.getElem?_eq_getElem hLt, by simpa using hAt⟩
  show List.Forall₂ _ (roots.filterMap _) roots
  generalize hGraph : link outlines roots = graph
  have hGet : ∀ id, graph.get? id = (outlines[id]?).map (linkedEntry (linkables outlines)) := by
    intro id
    rw [← hGraph, get?_link]
  clear hGraph h
  induction roots with
  | nil => exact .nil
  | cons root rest ih =>
      obtain ⟨id, outline, hid, hOutline, hName⟩ := hRoot root (by simp)
      simp only [List.filterMap_cons, hid]
      refine .cons ⟨linkedEntry (linkables outlines) outline, ?_, hName⟩
        (ih fun r hr => hRoot r (List.mem_cons_of_mem _ hr))
      rw [hGet, hOutline]
      rfl

/-! ## Marks -/

theorem get?_markVarLen {graph : TypeGraph} {ids : List TypeId} {id : TypeId} :
    (graph.markVarLen ids).get? id =
      (graph.get? id).map fun entry => { entry with varLen := ids.contains id } :=
  List.getElem?_mapIdx

theorem get?_markVarLen_of_get? {graph : TypeGraph} {ids : List TypeId} {id : TypeId}
    {entry : TypeEntry} (h : graph.get? id = some entry) :
    (graph.markVarLen ids).get? id = some { entry with varLen := ids.contains id } := by
  rw [get?_markVarLen, h]
  rfl

/-- One step of the pass that marks types. -/
private def markStep (graph : TypeGraph) (marked : List TypeId) (id : TypeId) : List TypeId :=
  match graph.get? id with
  | none => marked
  | some entry =>
    if entry.hasVarLenMember || entry.dependencies.any marked.contains then id :: marked
    else marked

private theorem varLenIds_snoc (graph : TypeGraph) (order : List TypeId) (id : TypeId) :
    graph.varLenIds (order ++ [id]) = markStep graph (graph.varLenIds order) id := by
  unfold varLenIds
  rw [List.foldl_append]
  rfl

/-- The step marks its own type, if there is a reason to, and leaves all other marks. -/
private theorem mem_markStep {graph : TypeGraph} {marked : List TypeId} {last id : TypeId}
    {entry : TypeEntry} (hLast : graph.get? last = some entry) :
    id ∈ markStep graph marked last ↔
      id ∈ marked ∨ (id = last ∧
        (entry.hasVarLenMember = true ∨ ∃ d ∈ entry.dependencies, d ∈ marked)) := by
  unfold markStep
  rw [hLast]
  dsimp only
  split
  · rename_i hCond
    rw [Bool.or_eq_true, List.any_eq_true] at hCond
    simp only [List.contains_iff_mem] at hCond
    rw [List.mem_cons]
    tauto
  · rename_i hCond
    rw [Bool.or_eq_true, List.any_eq_true] at hCond
    simp only [List.contains_iff_mem] at hCond
    exact (or_iff_left fun hid => hCond hid.2).symm

/-- A pass over an arranged order marks a type exactly if one of its members is a
variable-length array or a type nested in it is marked. -/
theorem mem_varLenIds {graph : TypeGraph} {order : List TypeId} (h : graph.Arranged order) :
    (∀ id ∈ graph.varLenIds order, id ∈ order) ∧
      ∀ id ∈ order, ∀ entry, graph.get? id = some entry →
        (id ∈ graph.varLenIds order ↔
          entry.hasVarLenMember = true ∨ ∃ d ∈ entry.dependencies, d ∈ graph.varLenIds order) := by
  induction h with
  | nil => exact ⟨by simp [varLenIds], by simp⟩
  | @snoc done last lastEntry hDone hNew hLast hDeps ih =>
      obtain ⟨hSub, hIff⟩ := ih
      have hMark : ∀ id, id ∈ graph.varLenIds (done ++ [last]) ↔
          id ∈ graph.varLenIds done ∨ (id = last ∧ (lastEntry.hasVarLenMember = true ∨
            ∃ d ∈ lastEntry.dependencies, d ∈ graph.varLenIds done)) := by
        intro id
        rw [varLenIds_snoc]
        exact mem_markStep hLast
      -- A nested type stands before the type, so marking the last type changes nothing for it.
      have hOld : ∀ entry : TypeEntry, (∀ d ∈ entry.dependencies, d ∈ done ∨ graph.get? d = none) →
          ∀ d ∈ entry.dependencies, d ∈ graph.varLenIds (done ++ [last]) ↔
            d ∈ graph.varLenIds done := by
        intro entry hBefore d hd
        rw [hMark]
        refine or_iff_left fun hEq => ?_
        rcases hBefore d hd with hMem | hNone
        · exact hNew (hEq.1 ▸ hMem)
        · rw [hEq.1, hLast] at hNone
          cases hNone
      constructor
      · intro id hid
        rcases (hMark id).1 hid with hid | hid
        · exact List.mem_append_left _ (hSub id hid)
        · simp [hid.1]
      · intro id hid entry hEntry
        rcases List.mem_append.1 hid with hid | hid
        · have hBefore : ∀ d ∈ entry.dependencies, d ∈ done ∨ graph.get? d = none :=
            hDone.closed id entry (.inl hid) hEntry
          have hNe : id ≠ last := fun e => hNew (e ▸ hid)
          rw [hMark, or_iff_left fun hEq => hNe hEq.1, hIff id hid entry hEntry]
          refine or_congr_right (exists_congr fun d => and_congr_right fun hd => ?_)
          exact (hOld entry hBefore d hd).symm
        · obtain rfl := List.mem_singleton.1 hid
          rw [hLast] at hEntry
          obtain rfl := Option.some.inj hEntry
          have hNotYet : id ∉ graph.varLenIds done := fun hMem => hNew (hSub id hMem)
          rw [hMark, or_iff_right hNotYet, and_iff_right rfl]
          refine or_congr_right (exists_congr fun d => and_congr_right fun hd => ?_)
          exact (hOld lastEntry hDeps d hd).symm

theorem arranged_markVarLen {graph : TypeGraph} {ids order : List TypeId}
    (h : graph.Arranged order) : (graph.markVarLen ids).Arranged order := by
  induction h with
  | nil => exact .nil
  | snoc _ hNew hEntry hDeps ih =>
      refine .snoc ih hNew (get?_markVarLen_of_get? hEntry) fun d hd => ?_
      refine (hDeps d hd).imp_right fun hNone => ?_
      rw [get?_markVarLen, hNone]
      rfl

/-! ## The whole graph -/

/-- The graph is acyclic: the search over all types has put them in order. -/
theorem arranged_of_checkAcyclic {graph : TypeGraph} {order : List TypeId}
    (h : graph.checkAcyclic = .ok order) :
    graph.Arranged order ∧ ∀ id entry, graph.get? id = some entry → id ∈ order := by
  have hSearch : graph.depthFirst [] [] graph.ids = .ok order := by
    unfold checkAcyclic at h
    cases hFirst : graph.depthFirst [] [] graph.ids with
    | error cycle => rw [hFirst] at h; cases h
    | ok found => rw [hFirst] at h; cases h; rfl
  obtain ⟨hArranged, hPending, _⟩ := depthFirst_ok hSearch .nil
  refine ⟨hArranged, fun id entry hEntry => ?_⟩
  rcases hPending id (graph.mem_ids_of_get? hEntry) with hMem | hNone
  · exact hMem
  · rw [hEntry] at hNone
    cases hNone

/-- The entry of an outline in a graph where the types in `ids` are marked. -/
def markedEntry (outlines : List Outline) (ids : List TypeId) (id : TypeId) (outline : Outline) :
    TypeEntry :=
  { linkedEntry (linkables outlines) outline with varLen := ids.contains id }

theorem get?_markVarLen_link {outlines : List Outline} {roots : List String} {ids : List TypeId}
    {id : TypeId} {entry : TypeEntry} :
    ((link outlines roots).markVarLen ids).get? id = some entry ↔
      ∃ outline, outlines[id]? = some outline ∧ markedEntry outlines ids id outline = entry := by
  rw [get?_markVarLen, get?_link, Option.map_map, Option.map_eq_some_iff]
  rfl

theorem mem_entries_iff {graph : TypeGraph} {entry : TypeEntry} :
    entry ∈ graph.entries ↔ ∃ id, graph.get? id = some entry :=
  List.mem_iff_getElem?

/-- Every type of a linked graph comes from an outline. -/
theorem exists_outline_of_mem {outlines : List Outline} {roots : List String} {ids : List TypeId}
    {entry : TypeEntry} (h : entry ∈ ((link outlines roots).markVarLen ids).entries) :
    ∃ id outline, outlines[id]? = some outline ∧ markedEntry outlines ids id outline = entry := by
  obtain ⟨id, hid⟩ := mem_entries_iff.1 h
  exact ⟨id, get?_markVarLen_link.1 hid⟩

theorem names_markVarLen_link (outlines : List Outline) (roots : List String) (ids : List TypeId) :
    ((link outlines roots).markVarLen ids).entries.map (fun entry => entry.name) =
      outlines.map Outline.name := by
  refine List.ext_getElem? fun i => ?_
  show (((outlines.map _).mapIdx _).map _)[i]? = _
  rw [List.getElem?_map, List.getElem?_mapIdx, List.getElem?_map, List.getElem?_map]
  cases outlines[i]? <;> rfl

/-- A type of a linked graph depends on the types that it names. -/
theorem mem_dependencies_markedEntry {outlines : List Outline} (roots : List String)
    {ids : List TypeId} {id d : TypeId} {outline : Outline} :
    d ∈ (markedEntry outlines ids id outline).dependencies ↔
      ∃ nested, ((link outlines roots).markVarLen ids).get? d = some nested ∧
        nested.name ∈ outline.nestedNames := by
  show d ∈ (linkedEntry (linkables outlines) outline).dependencies ↔ _
  rw [mem_dependencies_linkedEntry]
  constructor
  · rintro ⟨other, hOther, hName⟩
    exact ⟨_, get?_markVarLen_link.2 ⟨other, hOther, rfl⟩, hName⟩
  · rintro ⟨_, hNested, hName⟩
    obtain ⟨other, hOther, rfl⟩ := get?_markVarLen_link.1 hNested
    exact ⟨other, hOther, hName⟩

/-- A built graph is a linked one, with the marks that one pass over an order of all its types
gives it. -/
theorem exists_link_of_build {declarations : Declarations} {index : DirectiveIndex}
    {roots : List String} {graph : TypeGraph} (h : build declarations index roots = .ok graph) :
    ∃ outlines order, discover declarations index roots = .ok outlines ∧
      (link outlines roots).checkAcyclic = .ok order ∧
      graph = (link outlines roots).markVarLen ((link outlines roots).varLenIds order) := by
  obtain ⟨outlines, hDiscover, h⟩ := bind_eq_ok.1 h
  obtain ⟨order, hAcyclic, h⟩ := bind_eq_ok.1 h
  obtain ⟨_, _, hPure⟩ := bind_eq_ok.1 h
  exact ⟨outlines, order, hDiscover, hAcyclic, (pure_eq_ok.1 hPure).symm⟩

/-- Marks that a pass over an order of all types gives are those that the members force. -/
theorem mem_varLenIds_iff_marked {graph : TypeGraph} {order : List TypeId}
    (h : graph.Arranged order) (hAll : ∀ id entry, graph.get? id = some entry → id ∈ order)
    {id : TypeId} {entry : TypeEntry} (hEntry : graph.get? id = some entry) :
    id ∈ graph.varLenIds order ↔ entry.hasVarLenMember = true ∨
      ∃ d ∈ entry.dependencies, ∃ other,
        (graph.markVarLen (graph.varLenIds order)).get? d = some other ∧ other.varLen = true := by
  obtain ⟨hMarked, hMarks⟩ := mem_varLenIds h
  rw [hMarks id (hAll id entry hEntry) entry hEntry]
  refine or_congr_right (exists_congr fun d => and_congr_right fun hd => ?_)
  constructor
  · intro hMem
    obtain ⟨nested, hNested⟩ := h.valid d (hMarked d hMem)
    exact ⟨_, get?_markVarLen_of_get? hNested, List.contains_iff_mem.2 hMem⟩
  · rintro ⟨other, hOther, hVarLen⟩
    rw [get?_markVarLen, Option.map_eq_some_iff] at hOther
    obtain ⟨nested, _, rfl⟩ := hOther
    exact List.contains_iff_mem.1 hVarLen

/-- **Soundness of built graphs**: what `build` returns has all the properties that the
later stages rely on. -/
theorem sound_of_build {declarations : Declarations} {index : DirectiveIndex}
    {roots : List String} {graph : TypeGraph} (h : build declarations index roots = .ok graph) :
    graph.Sound declarations index roots := by
  obtain ⟨outlines, order, hDiscover, hAcyclic, rfl⟩ := exists_link_of_build h
  have hFound := discovered_of_discover hDiscover
  obtain ⟨hArranged, hAll⟩ := arranged_of_checkAcyclic hAcyclic
  refine ⟨?nodup_names, ?declared, ?nested, ?mem_dependencies, ?varLen_iff, ?arranged, ?root_ids⟩
  case nodup_names =>
    rw [names_markVarLen_link]
    exact hFound.nodup_names
  case declared =>
    intro entry hEntry
    obtain ⟨id, outline, hOutline, rfl⟩ := exists_outline_of_mem hEntry
    exact hFound.declared outline (List.mem_of_getElem? hOutline)
  case nested =>
    intro entry hEntry name hName
    obtain ⟨id, outline, hOutline, rfl⟩ := exists_outline_of_mem hEntry
    obtain ⟨other, hOther, rfl⟩ := hFound.nested outline (List.mem_of_getElem? hOutline) name hName
    obtain ⟨j, hj⟩ := List.mem_iff_getElem?.1 hOther
    exact ⟨_, mem_entries_iff.2 ⟨j, get?_markVarLen_link.2 ⟨other, hj, rfl⟩⟩, rfl⟩
  case mem_dependencies =>
    intro entry hEntry d other hOther
    obtain ⟨id, outline, _, rfl⟩ := exists_outline_of_mem hEntry
    rw [mem_dependencies_markedEntry roots, hOther]
    exact ⟨fun ⟨_, hSame, hName⟩ => Option.some.inj hSame ▸ hName, fun hName => ⟨_, rfl, hName⟩⟩
  case varLen_iff =>
    intro entry hEntry
    obtain ⟨id, outline, hOutline, rfl⟩ := exists_outline_of_mem hEntry
    have hForced := mem_varLenIds_iff_marked hArranged hAll
      (get?_link_of_getElem? hOutline : (link outlines roots).get? id = _)
    exact List.contains_iff_mem.trans hForced
  case arranged =>
    refine ⟨order, arranged_markVarLen hArranged, fun id entry hEntry => ?_⟩
    obtain ⟨outline, hOutline, _⟩ := get?_markVarLen_link.1 hEntry
    exact hAll id _ (get?_link_of_getElem? hOutline)
  case root_ids =>
    refine (root_ids_link hFound.roots_mem).imp ?_
    rintro id root ⟨entry, hEntry, hName⟩
    exact ⟨_, get?_markVarLen_of_get? hEntry, hName⟩

end TypeGraph

end WireSchema
