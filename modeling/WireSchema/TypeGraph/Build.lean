import WireSchema.Compile.Error
import WireSchema.Search.Worklist
import WireSchema.TypeGraph.Order

/-!
# Building the type graph

The graph of a list of root names is built in four steps, and the first failure of the
first step that fails is the answer.

1. *Discovery* outlines the roots and everything they contain, the last root first and
   each type's members after it.  It fails on a name without declaration and on a
   pointer that nothing represents.
2. *Linking* fills in which types contain which.
3. The containment has to be *acyclic*.
4. *References* from directives to members have to lead somewhere.

Then every type that contains a variable-length array is marked.
-/

namespace WireSchema

/-- The member of a field, if it can be represented. -/
def Member.ofField (index : DirectiveIndex) (owner : String) (field : Field) :
    Except CompileError Member :=
  let member : Member := ⟨field.name, field.type, index.lookup owner field.name⟩
  if member.isRepresentable then .ok member
  else .error (.unannotatedPointer owner field.name)

/-- The outline of the type of the given name. -/
def Outline.ofName (declarations : Declarations) (index : DirectiveIndex) (name : String) :
    Except CompileError Outline :=
  match declarations.get? name with
  | none => .error (.unknownType name)
  | some declaration => do
    let members ← declaration.fields.mapM (Member.ofField index name)
    return ⟨name, declaration.kind, members⟩

theorem Outline.mem_keys_of_ofName {declarations : Declarations} {index : DirectiveIndex}
    {name : String} {outline : Outline} (h : ofName declarations index name = .ok outline) :
    name ∈ declarations.keys := by
  unfold ofName at h
  split at h
  · simp at h
  · rename_i hGet
    exact Table.mem_keys_of_get? hGet

/-- The search for the types that the roots contain. -/
def discovery (declarations : Declarations) (index : DirectiveIndex) :
    Worklist Outline CompileError where
  domain := declarations.keys
  visit name :=
    match Outline.ofName declarations index name with
    | .ok outline => .ok (outline, outline.nestedNames)
    | .error e => .error e
  mem_domain {name found} h := by
    cases hOutline : Outline.ofName declarations index name with
    | ok outline => exact Outline.mem_keys_of_ofName hOutline
    | error e => simp [hOutline] at h

/-- The outlines of everything the roots contain, in the order of discovery. -/
def discover (declarations : Declarations) (index : DirectiveIndex) (roots : List String) :
    Except CompileError (List Outline) :=
  ((discovery declarations index).run roots).map fun found => found.map Prod.snd

namespace TypeGraph

/-- What linking needs to know of an outline: its id, its name, and the names of the types
nested in it. -/
structure Linkable where
  id : TypeId
  name : String
  nested : List String

/-- The outlines as linking sees them, by increasing name. -/
def linkables (outlines : List Outline) : List Linkable :=
  (outlines.zipIdx.map fun (outline, id) => ⟨id, outline.name, outline.nestedNames⟩).mergeSort
    fun a b => decide (a.name ≤ b.name)

/-- The entry of an outline, linked with the others and not marked. -/
def linkedEntry (others : List Linkable) (outline : Outline) : TypeEntry :=
  let nested := outline.nestedNames
  { outline with
    dependencies := (others.filter fun other => nested.contains other.name).map Linkable.id
    appearsIn := (others.filter fun other => other.nested.contains outline.name).map Linkable.id
    varLen := false }

/-- The graph of some outlines, with the links between them and nothing marked yet. -/
def link (outlines : List Outline) (roots : List String) : TypeGraph where
  entries := outlines.map (linkedEntry (linkables outlines))
  roots := roots.filterMap fun root => outlines.findIdx? fun outline => outline.name == root

/-- A reference from a directive on a member of `owner` leads to a member: a length
field and a discriminator to a sibling, a mapping to members of the member's union. -/
def checkReference (graph : TypeGraph) (owner : Outline) (member : Member) :
    Directive → Except CompileError Unit
  | .varLenArray lengthField =>
    if owner.hasMember lengthField then .ok ()
    else .error (.unknownLengthField owner.name member.name lengthField)
  | .unionVariant discriminator mapping =>
    if !owner.hasMember discriminator then
      .error (.unknownDiscriminator owner.name member.name discriminator)
    else
      match (graph.nested? member).filter fun entry => entry.isUnion with
      | none => .error (.notAUnion owner.name member.name)
      | some union =>
        match mapping.find? fun pair => !union.hasMember pair.2 with
        | some missing => .error (.invalidVariantMapping union.name missing.2)
        | none => .ok ()
  | _ => .ok ()

/-- All references of the graph lead somewhere. -/
def checkReferences (graph : TypeGraph) : Except CompileError Unit :=
  graph.entries.forM fun entry =>
    entry.members.forM fun member =>
      member.directives.forM (graph.checkReference entry.toOutline member)

/-- The order of all types, or the first cycle as an error. -/
def checkAcyclic (graph : TypeGraph) : Except CompileError (List TypeId) :=
  (graph.depthFirst [] [] graph.ids).mapError fun cycle =>
    .dependencyCycle (cycle.map graph.nameOf)

/-- The types of `order` that contain a variable-length array.  A type follows those it
contains, so one pass decides them all. -/
def varLenIds (graph : TypeGraph) (order : List TypeId) : List TypeId :=
  order.foldl
    (fun marked id =>
      match graph.get? id with
      | none => marked
      | some entry =>
        if entry.hasVarLenMember || entry.dependencies.any marked.contains then id :: marked
        else marked)
    []

/-- The graph with the types in `ids` marked as variable-length, and no others. -/
def markVarLen (graph : TypeGraph) (ids : List TypeId) : TypeGraph :=
  { graph with
    entries := graph.entries.mapIdx fun id entry => { entry with varLen := ids.contains id } }

/-- The type graph of the given roots. -/
def build (declarations : Declarations) (index : DirectiveIndex) (roots : List String) :
    Except CompileError TypeGraph := do
  let graph := link (← discover declarations index roots) roots
  let order ← graph.checkAcyclic
  graph.checkReferences
  return graph.markVarLen (graph.varLenIds order)

end TypeGraph

end WireSchema
