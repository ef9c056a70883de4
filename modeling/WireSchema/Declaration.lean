import WireSchema.Table
import WireSchema.Text.Blank

/-!
# Source declarations

A source header declares structures and unions.  A field has a name and a type
specification: a base type, spelled as in the header, and at most one declarator
that turns it into a pointer or a fixed array.

The base keeps its qualifiers, because some output repeats it as written.  What the
base *refers to* is read after its leading `const` and `volatile`:
`unqualified` removes them, and `aggregateName?` gives the structure or union that
remains, if it is one.
-/

namespace WireSchema

/-- The two kinds of aggregate type. -/
inductive AggregateKind where
  | struct
  | union
  deriving DecidableEq, Repr, Inhabited

namespace AggregateKind

/-- The keyword that introduces the aggregate. -/
def keyword : AggregateKind → String
  | struct => "struct"
  | union => "union"

/-- Whether the members share their storage. -/
def isUnion : AggregateKind → Bool
  | struct => false
  | union => true

theorem isUnion_eq_true {kind : AggregateKind} : kind.isUnion = true ↔ kind = .union := by
  cases kind <;> decide

theorem isUnion_eq_false {kind : AggregateKind} : kind.isUnion = false ↔ kind = .struct := by
  cases kind <;> decide

end AggregateKind

/-- What a field makes of its base type. -/
inductive Declarator where
  | plain
  | pointer
  | array (length : Nat)
  deriving DecidableEq, Repr, Inhabited

/-- The qualifiers that precede a base type, each with the space that ends it. -/
def qualifiers : List (List Char) :=
  ["const ".toList, "volatile ".toList]

/-- What follows the leading qualifier of `cs` and its blanks, if `cs` begins with one. -/
def dropQualifier? (cs : List Char) : Option (List Char) :=
  (qualifiers.findSome? fun qualifier => Text.dropLead? qualifier cs).map Text.trimStart

theorem length_of_dropQualifier? {cs rest : List Char} (h : dropQualifier? cs = some rest) :
    rest.length < cs.length := by
  obtain ⟨after, hAfter, rfl⟩ := Option.map_eq_some_iff.1 h
  obtain ⟨qualifier, hMem, hDrop⟩ := List.exists_of_findSome?_eq_some hAfter
  obtain rfl := Text.dropLead?_eq_some.1 hDrop
  have hLength : 0 < qualifier.length :=
    (by decide : ∀ qualifier ∈ qualifiers, 0 < qualifier.length) qualifier hMem
  have hTrim : (Text.trimStart after).length ≤ after.length :=
    (List.dropWhile_suffix _).length_le
  rw [List.length_append]
  omega

/-- `cs` after all its leading qualifiers. -/
def dropQualifiers (cs : List Char) : List Char :=
  match _h : dropQualifier? cs with
  | some rest => dropQualifiers rest
  | none => cs
termination_by cs.length
decreasing_by exact length_of_dropQualifier? _h

/-- A type as spelled, without blanks at its ends and without leading qualifiers. -/
def unqualified (spec : String) : String :=
  String.ofList (dropQualifiers (Text.trim spec.toList))

/-- A base type and its declarator. -/
structure TypeSpec where
  base : String
  declarator : Declarator
  deriving DecidableEq, Repr, Inhabited

namespace TypeSpec

/-- The base type without leading qualifiers. -/
def unqualifiedBase (type : TypeSpec) : String :=
  unqualified type.base

/-- Whether the declarator makes a pointer. -/
def isPointer (type : TypeSpec) : Bool :=
  match type.declarator with
  | .pointer => true
  | _ => false

/-- The number of elements, if the declarator makes a fixed array. -/
def arrayLength? (type : TypeSpec) : Option Nat :=
  match type.declarator with
  | .array length => some length
  | _ => none

/-- The name of the structure or union that the base type refers to. -/
def aggregateName? (type : TypeSpec) : Option String :=
  let base := type.unqualifiedBase.toList
  ((Text.dropLead? "struct ".toList base).or (Text.dropLead? "union ".toList base)).map
    fun name => String.ofList (Text.trim name)

/-- The specification as text. -/
def toText (type : TypeSpec) : String :=
  match type.declarator with
  | .plain => type.base
  | .pointer => type.base ++ " *"
  | .array length => type.base ++ "[" ++ Nat.repr length ++ "]"

end TypeSpec

/-- A field of a declaration. -/
structure Field where
  name : String
  type : TypeSpec
  deriving DecidableEq, Repr, Inhabited

/-- The declaration of a structure or union: its kind and its fields in order. -/
structure Declaration where
  kind : AggregateKind
  fields : List Field
  deriving DecidableEq, Repr, Inhabited

/-- Declarations by name. -/
abbrev Declarations := Table Declaration

end WireSchema
