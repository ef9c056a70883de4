/-!
# Why compiling fails

Every error concerns the declarations, the directives or the request, and ends the
whole run.  The constructors name the cause; `CompileError.message` is the text shown
for it.
-/

namespace WireSchema

/-- A cause of failure. -/
inductive CompileError where
  /-- No structure or union has this name. -/
  | unknownType (name : String)
  /-- A pointer without a directive that gives it a representation. -/
  | unannotatedPointer (typeName field : String)
  /-- A type outside the source naming scheme that is not renamed. -/
  | namingConvention (typeName apiPrefix : String)
  /-- A type whose name does not continue the source prefix with the service. -/
  | structureNaming (typeName apiPrefix service : String)
  /-- Variable-length data where only fixed-size data can be encoded. -/
  | unsupportedNesting (typeName field : String)
  /-- Types that contain each other, from a type back to itself. -/
  | dependencyCycle (path : List String)
  /-- A length field that is not a sibling. -/
  | unknownLengthField (typeName field lengthField : String)
  /-- A discriminator that is not a sibling. -/
  | unknownDiscriminator (typeName field discriminator : String)
  /-- A mapping to a member the union does not have. -/
  | invalidVariantMapping (unionType member : String)
  /-- A discriminated field that is not a union. -/
  | notAUnion (typeName field : String)
  /-- A union without a discriminator. -/
  | undiscriminatedUnion (typeName field : String)
  /-- A root type that is a union. -/
  | unionRoot (name : String)
  deriving DecidableEq, Inhabited

/-- The text shown for an error. -/
def CompileError.message : CompileError → String
  | unknownType name => "couldn't find `" ++ name ++ "` in parsed structs/unions"
  | unannotatedPointer typeName field =>
    "pointer member `" ++ field ++ "` of `" ++ typeName ++ "` requires an annotation"
  | namingConvention typeName apiPrefix =>
    "type `" ++ typeName ++ "` does not start with `" ++ apiPrefix ++
      "` and has no rename_type annotation"
  | structureNaming typeName apiPrefix service =>
    "unexpected structure name `" ++ typeName ++ "`: expected `" ++ apiPrefix ++ service ++
      "<Name>`"
  | unsupportedNesting typeName field =>
    "unsupported nesting of variable-length data at `" ++ typeName ++ "." ++ field ++ "`"
  | dependencyCycle path => "dependency cycle: " ++ String.intercalate " -> " path
  | unknownLengthField typeName field lengthField =>
    "`" ++ typeName ++ "." ++ field ++ "` references unknown length field `" ++ lengthField ++ "`"
  | unknownDiscriminator typeName field discriminator =>
    "`" ++ typeName ++ "." ++ field ++ "` references unknown discriminator `" ++ discriminator ++
      "`"
  | invalidVariantMapping unionType member =>
    "invalid mapping: couldn't find member `" ++ member ++ "` in union `" ++ unionType ++ "`"
  | notAUnion typeName field =>
    "`" ++ typeName ++ "." ++ field ++ "` has a union_variant annotation but is not a union"
  | undiscriminatedUnion typeName field =>
    "union member `" ++ field ++ "` of `" ++ typeName ++ "` has no union_variant annotation"
  | unionRoot name => "root type `" ++ name ++ "` is a union"

end WireSchema
