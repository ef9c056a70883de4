import WireSchema.Compile.Representation
import WireSchema.TypeGraph.Order

/-!
# Encode functions

Every structure the roots contain has an encode function with one step for each
member, and comes after those it calls.  A union has none: the structure around it
knows the discriminator and encodes the union in place.

The first directive on a member that speaks about encoding decides its step: a
constant, a variable-length array or a discriminated union, the latter two only if its
type is not overridden.  A member without such a directive is copied.
-/

namespace WireSchema.Naming

/-- How a member that is copied gets into its place. -/
def copy (naming : Naming) (owner : Outline) (member : Member) : Except CompileError Copy :=
  let primitive : Copy :=
    match member.arrayLength? with
    | none => .scalar
    | some length => .array length
  if member.typeOverride?.isSome then .ok primitive
  else
    match naming.graph.nested? member with
    | none => .ok primitive
    | some nested =>
      if nested.isUnion then .error (.undiscriminatedUnion owner.name member.name)
      else do
        let function ← naming.functionName .convert nested.name
        match member.arrayLength? with
        | none => return .record nested.name function nested.varLen
        | some length =>
          if nested.varLen then throw (.unsupportedNesting owner.name member.name)
          else return .recordArray nested.name function length

/-- The step of a constant. -/
def fixedStep (member : Member) (value : Literal) : Step :=
  if member.arrayLength?.isSome then .fixedFill member.name value
  else .fixedScalar member.name value

/-- The step of a variable-length array.  Its elements have a fixed size. -/
def varLenStep (naming : Naming) (owner : Outline) (member : Member) (lengthField : String) :
    Except CompileError Step := do
  let copy ← match naming.graph.nested? member with
    | none => pure Copy.scalar
    | some nested =>
      if nested.isUnion then throw (.undiscriminatedUnion owner.name member.name)
      else if nested.varLen then throw (.unsupportedNesting owner.name member.name)
      else do
        let function ← naming.functionName .convert nested.name
        pure (Copy.record nested.name function false)
  return .varLen member.name lengthField (← naming.representation member) copy

/-- The arm for one pair of a mapping. -/
def unionArm (naming : Naming) (union : Outline) (value : Literal) (target : String) :
    Except CompileError UnionArm :=
  match union.member? target with
  | none => .error (.invalidVariantMapping union.name target)
  | some variant => do return ⟨value, target, ← naming.copy union variant⟩

/-- The step of a discriminated union. -/
def unionStep (naming : Naming) (owner : Outline) (member : Member) (discriminator : String)
    (mapping : List (Literal × String)) : Except CompileError Step :=
  match (naming.graph.nested? member).filter fun entry => entry.isUnion with
  | none => .error (.notAUnion owner.name member.name)
  | some union =>
    if member.arrayLength?.isSome then .error (.unsupportedNesting owner.name member.name)
    else do
      let arms ← mapping.mapM fun (value, target) => naming.unionArm union.toOutline value target
      return .union member.name (← naming.recordRef union.name) discriminator arms

/-- The step that the first directive on encoding among `directives` asks for. -/
def stepOf (naming : Naming) (owner : Outline) (member : Member) :
    (directives : List Directive) → Except CompileError Step
  | [] => (naming.copy owner member).map (.assign member.name)
  | .fixedValue value :: _ => .ok (fixedStep member value)
  | .varLenArray lengthField :: rest =>
    if member.typeOverride?.isSome then naming.stepOf owner member rest
    else naming.varLenStep owner member lengthField
  | .unionVariant discriminator mapping :: rest =>
    if member.typeOverride?.isSome then naming.stepOf owner member rest
    else naming.unionStep owner member discriminator mapping
  | _ :: rest => naming.stepOf owner member rest

/-- The step of a member. -/
def step (naming : Naming) (owner : Outline) (member : Member) : Except CompileError Step :=
  naming.stepOf owner member member.directives

/-- The encode function of a structure. -/
def encodeFunction (naming : Naming) (entry : TypeEntry) : Except CompileError EncodeFunction := do
  let target ← naming.typeName entry.name
  let function ← naming.functionName .convert entry.name
  let steps ← entry.members.mapM (naming.step entry.toOutline)
  return ⟨entry.name, target, function, entry.varLen, steps⟩

/-- All encode functions. -/
def encodeFunctions (naming : Naming) : Except CompileError (List EncodeFunction) :=
  let order := naming.graph.entriesOf (naming.graph.postOrder naming.graph.roots)
  (order.filter fun entry => !entry.isUnion).mapM naming.encodeFunction

end WireSchema.Naming
