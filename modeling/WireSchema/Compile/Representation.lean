import WireSchema.Compile.Naming

/-!
# Packed members

How a member is represented in its packed type.  If its type is overridden, that type is
all that matters; a nested structure or union has its generated type; anything else
keeps its base type without `const` and `volatile`, because generated members are
written to.  A variable-length array whose type is not overridden is represented by a
descriptor of its elements.
-/

namespace WireSchema.Naming

/-- The representation of one value of the member; of a variable-length array, of one
element. -/
def representation (naming : Naming) (member : Member) : Except CompileError Representation :=
  match member.typeOverride?, member.nested? with
  | some spec, _ => .ok (.primitive spec)
  | none, some nested => (naming.recordRef nested).map .record
  | none, none => .ok (.primitive member.type.unqualifiedBase)

/-- What the member holds in its packed type. -/
def placement (naming : Naming) (member : Member) : Except CompileError Placement :=
  if member.typeOverride?.isNone && member.lengthField?.isSome then
    (naming.representation member).map .descriptor
  else
    (naming.representation member).map .value

/-- The comment on a member that does not simply hold its source value, from the first
directive that says so. -/
def comment? (member : Member) (placement : Placement) : Option String :=
  member.directives.findSome? fun directive =>
    match directive, placement with
    | .fixedValue value, _ => some ("Input ignored; always set to " ++ value.toText)
    | .varLenArray lengthField, .descriptor element =>
      some ("References " ++ lengthField ++ " instances of " ++ element.spelling)
    | _, _ => none

/-- The packed member. -/
def packedMember (naming : Naming) (member : Member) : Except CompileError PackedMember := do
  let placement ← naming.placement member
  return ⟨member.name, placement, member.arrayLength?, comment? member placement⟩

/-- The packed type of an entry. -/
def packedType (naming : Naming) (entry : TypeEntry) : Except CompileError PackedType := do
  let target ← naming.typeName entry.name
  return ⟨entry.name, target, entry.kind, ← entry.members.mapM naming.packedMember⟩

end WireSchema.Naming
