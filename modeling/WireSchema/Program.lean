import WireSchema.Directive.Basic
import WireSchema.Declaration

/-!
# Programs

A program is what a request compiles to, free of any surface syntax: the packed types,
the functions that compute encoded sizes, the functions that encode, and one entry
point for every root.  It is rendered as C, and it can be run directly.

Types are known by two names: the *source* name is the one of the annotated
declaration, the *target* is the generated type with its keyword.
-/

namespace WireSchema

/-- A reference to a generated structure or union. -/
structure RecordRef where
  source : String
  target : String
  kind : AggregateKind
  deriving DecidableEq, Inhabited

/-- How one value is represented. -/
inductive Representation where
  /-- A primitive type, or one that overrides a source type, as spelled. -/
  | primitive (spec : String)
  /-- A generated type. -/
  | record (record : RecordRef)
  deriving DecidableEq, Inhabited

/-- The type as spelled in generated code. -/
def Representation.spelling : Representation → String
  | primitive spec => spec
  | record ref => ref.target

/-- What a member holds in its packed type. -/
inductive Placement where
  /-- The value itself. -/
  | value (representation : Representation)
  /-- Offset and length of consecutive elements in the payload. -/
  | descriptor (element : Representation)
  deriving DecidableEq, Inhabited

/-- A member of a packed type. -/
structure PackedMember where
  name : String
  placement : Placement
  arrayLength : Option Nat
  comment : Option String
  deriving DecidableEq, Inhabited

/-- A generated structure or union, packed without padding. -/
structure PackedType where
  source : String
  target : String
  kind : AggregateKind
  members : List PackedMember
  deriving DecidableEq, Inhabited

/-- A source type without a name of its own has one that begins with `anon`. -/
def PackedType.isAnonymous (type : PackedType) : Bool :=
  "anon".toList.isPrefixOf type.source.toList

/-- How a source value gets into its place. -/
inductive Copy where
  /-- One primitive value. -/
  | scalar
  /-- A fixed array of primitive values. -/
  | array (length : Nat)
  /-- A structure, by its own encode function; `varLen` passes the payload on. -/
  | record (source function : String) (varLen : Bool)
  /-- A fixed array of structures, each by their encode function. -/
  | recordArray (source function : String) (length : Nat)
  deriving DecidableEq, Inhabited

/-- The union member copied when the discriminator has a value. -/
structure UnionArm where
  value : Literal
  member : String
  copy : Copy
  deriving DecidableEq, Inhabited

/-- The encoding of one member. -/
inductive Step where
  /-- A constant in place of a scalar. -/
  | fixedScalar (field : String) (value : Literal)
  /-- The low byte of a constant throughout an array. -/
  | fixedFill (field : String) (value : Literal)
  /-- The source value. -/
  | assign (field : String) (copy : Copy)
  /-- Elements copied to the payload, and where they went. -/
  | varLen (field lengthField : String) (element : Representation) (copy : Copy)
  /-- A zeroed union, and in it the member that the discriminator selects. -/
  | union (field : String) (record : RecordRef) (discriminator : String) (arms : List UnionArm)
  deriving DecidableEq, Inhabited

/-- The member that the step encodes. -/
def Step.field : Step → String
  | fixedScalar field _ => field
  | fixedFill field _ => field
  | assign field _ => field
  | varLen field .. => field
  | union field .. => field

/-- The function that encodes a structure. -/
structure EncodeFunction where
  source : String
  target : String
  function : String
  /-- Whether it takes the payload. -/
  varLen : Bool
  steps : List Step
  deriving DecidableEq, Inhabited

/-- What a member adds to an encoded size beyond the packed type. -/
inductive SizeTerm where
  /-- As many elements as the length field says. -/
  | varLen (field lengthField : String) (element : Representation)
  /-- The payload of a nested structure. -/
  | nested (field source target function : String)
  deriving DecidableEq, Inhabited

/-- The function that computes the encoded size of a variable-length structure. -/
structure SizeFunction where
  source : String
  target : String
  function : String
  /-- The name of its parameter. -/
  parameter : String
  terms : List SizeTerm
  deriving DecidableEq, Inhabited

/-- How much an entry point allocates. -/
inductive EntrySize where
  /-- The size of the packed type. -/
  | static
  /-- What the named size function returns. -/
  | dynamic (function : String)
  deriving DecidableEq, Inhabited

/-- The public function that allocates and encodes a root type. -/
structure EntryPoint where
  source : String
  target : String
  function : String
  encoder : String
  size : EntrySize
  varLen : Bool
  deriving DecidableEq, Inhabited

/-- What a request compiles to. -/
structure Program where
  service : String
  includes : List String
  roots : List String
  /-- Packed types, each after those it contains. -/
  types : List PackedType
  /-- Size functions, each after those it calls. -/
  sizeFunctions : List SizeFunction
  /-- Encode functions, each after those it calls. -/
  encodeFunctions : List EncodeFunction
  /-- One entry point for each root, in the order of the request. -/
  entryPoints : List EntryPoint
  deriving DecidableEq, Inhabited

namespace Program

/-- The packed type of a source type. -/
def type? (program : Program) (source : String) : Option PackedType :=
  program.types.find? (·.source == source)

/-- The size function of a source type. -/
def sizeFunction? (program : Program) (source : String) : Option SizeFunction :=
  program.sizeFunctions.find? (·.source == source)

/-- The encode function of a source type. -/
def encodeFunction? (program : Program) (source : String) : Option EncodeFunction :=
  program.encodeFunctions.find? (·.source == source)

/-- The entry point of a root type. -/
def entryPoint? (program : Program) (source : String) : Option EntryPoint :=
  program.entryPoints.find? (·.source == source)

end Program

end WireSchema
