import WireSchema.Packing.Primitive
import WireSchema.Program

/-!
# Packed layouts

Packed types have no padding: a member of a structure begins where the one before it
ends, and all members of a union begin at its start.  Layouts are computed in the order
of a program's types, so that a type may refer to those before it.

A `FieldLayout` places a member.  Its `elementSize` is the size of one element of an
array, of the value itself, or of one element that a descriptor describes.
-/

namespace WireSchema

/-- The size of a descriptor: an offset and a length of two bytes each. -/
def descriptorSize : Nat := 4

/-- The place of a member in its packed type. -/
structure FieldLayout where
  offset : Nat
  /-- The bytes taken in the packed type. -/
  size : Nat
  elementSize : Nat
  /-- The number of elements, one if the member is no array. -/
  count : Nat
  /-- The class of an element, if it is primitive. -/
  scalar : Option ScalarClass
  deriving DecidableEq, Inhabited

/-- The places of all members of a packed type. -/
structure TypeLayout where
  kind : AggregateKind
  size : Nat
  fields : Table FieldLayout

/-- The layouts of packed types, by source name. -/
abbrev Layouts := Table TypeLayout

/-- Why a program has no layout. -/
inductive LayoutError where
  /-- A primitive type that the table does not list. -/
  | unsizedPrimitive (typeName field spec : String)
  /-- A reference to a type that does not precede it. -/
  | undeclaredType (name : String)
  deriving DecidableEq, Inhabited

/-- The text shown for an error. -/
def LayoutError.message : LayoutError → String
  | unsizedPrimitive typeName field spec =>
    "no size known for `" ++ spec ++ "` (member `" ++ field ++ "` of `" ++ typeName ++ "`)"
  | undeclaredType name => "type `" ++ name ++ "` is referenced before it is declared"

namespace Layouts

/-- The size and class of one value. -/
def elementOf (layouts : Layouts) (primitives : Primitives) (owner member : String) :
    Representation → Except LayoutError (Nat × Option ScalarClass)
  | .primitive spec =>
    match primitives.resolve? spec with
    | some primitive => .ok (primitive.size, some primitive.scalar)
    | none => .error (.unsizedPrimitive owner member spec)
  | .record ref =>
    match layouts.get? ref.source with
    | some layout => .ok (layout.size, none)
    | none => .error (.undeclaredType ref.source)

/-- The layout of a member that begins at `offset`. -/
def fieldAt (layouts : Layouts) (primitives : Primitives) (owner : String)
    (member : PackedMember) (offset : Nat) : Except LayoutError FieldLayout :=
  let count := member.arrayLength.getD 1
  match member.placement with
  | .value representation => do
    let (elementSize, scalar) ← layouts.elementOf primitives owner member.name representation
    return ⟨offset, elementSize * count, elementSize, count, scalar⟩
  | .descriptor element => do
    let (elementSize, scalar) ← layouts.elementOf primitives owner member.name element
    return ⟨offset, descriptorSize * count, elementSize, count, scalar⟩

/-- The layouts of `members`, of which the first begins at `offset`, and the size of the
type they end up in. -/
def fieldsFrom (layouts : Layouts) (primitives : Primitives) (kind : AggregateKind)
    (owner : String) (size : Nat) :
    List PackedMember → Except LayoutError (List (String × FieldLayout) × Nat)
  | [] => .ok ([], size)
  | member :: rest => do
    let offset := if kind.isUnion then 0 else size
    let field ← layouts.fieldAt primitives owner member offset
    let (fields, total) ←
      layouts.fieldsFrom primitives kind owner (max size (field.offset + field.size)) rest
    return ((member.name, field) :: fields, total)

/-- The layout of a packed type. -/
def typeLayout (layouts : Layouts) (primitives : Primitives) (type : PackedType) :
    Except LayoutError TypeLayout := do
  let (fields, size) ← layouts.fieldsFrom primitives type.kind type.source 0 type.members
  return ⟨type.kind, size, Table.ofList fields⟩

/-- The layouts of packed types, added to those there are. -/
def addTypes (layouts : Layouts) (primitives : Primitives) :
    List PackedType → Except LayoutError Layouts
  | [] => .ok layouts
  | type :: rest => do
    let layout ← layouts.typeLayout primitives type
    addTypes (layouts.insert type.source layout) primitives rest

/-- The layouts of a program. -/
def ofProgram (primitives : Primitives) (program : Program) : Except LayoutError Layouts :=
  addTypes Table.empty primitives program.types

end Layouts

end WireSchema
