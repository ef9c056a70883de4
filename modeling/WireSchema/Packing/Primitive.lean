import WireSchema.Declaration

/-!
# Primitive types

The size and the class of the types that are not aggregates.  A table of primitives
lists them by name; qualifiers of a type are ignored, and every `enum` type is a signed
integer of four bytes, listed or not.
-/

namespace WireSchema

/-- How the bytes of a primitive value are interpreted. -/
inductive ScalarClass where
  | unsigned
  | signed
  | float
  | bool
  deriving DecidableEq, Repr, Inhabited

/-- A primitive type. -/
structure Primitive where
  size : Nat
  scalar : ScalarClass
  deriving DecidableEq, Repr, Inhabited

/-- Primitive types by name. -/
abbrev Primitives := Table Primitive

namespace Primitives

/-- The fixed-width integers, characters, truth values and floating-point numbers. -/
def standard : Primitives :=
  Table.ofList
    [ ("uint8_t", ⟨1, .unsigned⟩), ("int8_t", ⟨1, .signed⟩)
    , ("uint16_t", ⟨2, .unsigned⟩), ("int16_t", ⟨2, .signed⟩)
    , ("uint32_t", ⟨4, .unsigned⟩), ("int32_t", ⟨4, .signed⟩)
    , ("uint64_t", ⟨8, .unsigned⟩), ("int64_t", ⟨8, .signed⟩)
    , ("char", ⟨1, .signed⟩), ("bool", ⟨1, .bool⟩)
    , ("float", ⟨4, .float⟩), ("double", ⟨8, .float⟩) ]

/-- What every `enum` type is. -/
def enumeration : Primitive := ⟨4, .signed⟩

/-- The primitive that a type specification names. -/
def resolve? (primitives : Primitives) (spec : String) : Option Primitive :=
  let base := unqualified spec
  if "enum ".toList.isPrefixOf base.toList then some enumeration else primitives.get? base

end Primitives

end WireSchema
