import WireSchema.Directive.Basic
import WireSchema.Declaration

/-!
# The type graph

The type graph holds every structure and union that the requested root types contain,
directly or through others.  An entry is identified by its place in the graph, its
`TypeId`.

* `Member` and `Outline` are a field and a declaration together with the directives
  on them.
* `TypeEntry` adds what follows from the other entries: the types nested directly in
  it, the types it is nested in, and whether its encoding has a variable length.
* `TypeGraph` is the list of entries, with the roots in the order of the request.
-/

namespace WireSchema

/-- A field with the directives on it. -/
structure Member where
  name : String
  type : TypeSpec
  directives : List Directive
  deriving DecidableEq, Inhabited

namespace Member

/-- The structure or union that the member's type names. -/
def nested? (member : Member) : Option String :=
  member.type.aggregateName?

/-- The number of elements of a fixed array. -/
def arrayLength? (member : Member) : Option Nat :=
  member.type.arrayLength?

/-- The type that the first `overrideType` gives the member. -/
def typeOverride? (member : Member) : Option String :=
  member.directives.findSome? fun
    | .overrideType spec => some spec
    | _ => none

/-- The length field that the first `varLenArray` names. -/
def lengthField? (member : Member) : Option String :=
  member.directives.findSome? fun
    | .varLenArray lengthField => some lengthField
    | _ => none

/-- The constant of the first `fixedValue`. -/
def fixedValue? (member : Member) : Option Literal :=
  member.directives.findSome? fun
    | .fixedValue value => some value
    | _ => none

/-- Whether the member has a representation: a pointer needs a directive that gives
it one. -/
def isRepresentable (member : Member) : Bool :=
  !member.type.isPointer || member.typeOverride?.isSome || member.lengthField?.isSome

end Member

/-- A declaration with its name and annotated members. -/
structure Outline where
  name : String
  kind : AggregateKind
  members : List Member
  deriving DecidableEq, Inhabited

namespace Outline

/-- Whether the members share their storage. -/
def isUnion (outline : Outline) : Bool :=
  outline.kind.isUnion

/-- The first member of the given name. -/
def member? (outline : Outline) (name : String) : Option Member :=
  outline.members.find? (·.name == name)

/-- Whether there is a member of the given name. -/
def hasMember (outline : Outline) (name : String) : Bool :=
  outline.members.any (·.name == name)

/-- The names of the types nested directly, in the order of the members. -/
def nestedNames (outline : Outline) : List String :=
  outline.members.filterMap Member.nested?

/-- Whether a member is itself a variable-length array. -/
def hasVarLenMember (outline : Outline) : Bool :=
  outline.members.any (·.lengthField?.isSome)

end Outline

/-- The place of an entry in its graph. -/
abbrev TypeId := Nat

/-- A type of the graph. -/
structure TypeEntry extends Outline where
  /-- The types nested directly in this one, by increasing name. -/
  dependencies : List TypeId
  /-- The types this one is nested in directly, by increasing name. -/
  appearsIn : List TypeId
  /-- Whether this type or one it contains has a variable-length array. -/
  varLen : Bool
  deriving DecidableEq, Inhabited

/-- The types that the roots contain. -/
structure TypeGraph where
  entries : List TypeEntry
  /-- The root types, in the order of the request. -/
  roots : List TypeId
  deriving DecidableEq, Inhabited

namespace TypeGraph

/-- The entry of an id. -/
def get? (graph : TypeGraph) (id : TypeId) : Option TypeEntry :=
  graph.entries[id]?

/-- The number of types. -/
def size (graph : TypeGraph) : Nat :=
  graph.entries.length

/-- The ids of the graph, in order. -/
def ids (graph : TypeGraph) : List TypeId :=
  List.range graph.size

theorem mem_ids_of_get? (graph : TypeGraph) {id : TypeId} {entry : TypeEntry}
    (h : graph.get? id = some entry) : id ∈ graph.ids :=
  List.mem_range.2 (List.getElem?_eq_some_iff.1 h).1

/-- The id of the type of the given name. -/
def idOf? (graph : TypeGraph) (name : String) : Option TypeId :=
  graph.entries.findIdx? (·.name == name)

/-- The type of the given name. -/
def find? (graph : TypeGraph) (name : String) : Option TypeEntry :=
  graph.entries.find? (·.name == name)

/-- The type nested in a member, if it is in the graph. -/
def nested? (graph : TypeGraph) (member : Member) : Option TypeEntry :=
  member.nested?.bind graph.find?

/-- Whether the type of the given name has a variable length; a name outside the graph
has not. -/
def isVarLen (graph : TypeGraph) (name : String) : Bool :=
  (graph.find? name).any TypeEntry.varLen

/-- The entries of a list of ids. -/
def entriesOf (graph : TypeGraph) (ids : List TypeId) : List TypeEntry :=
  ids.filterMap graph.get?

/-- The root types. -/
def rootEntries (graph : TypeGraph) : List TypeEntry :=
  graph.entriesOf graph.roots

end TypeGraph

end WireSchema
