import WireSchema.Text.Numeral

/-!
# Directives

A directive tells how a source type or one of its fields is represented.  It is
attached to a *slot* of a type: the name of a field, or `"."` for the type itself.
There is a fixed list of kinds, each with a name and a number.

`DirectiveIndex` holds the notes of a document in their order.  `lookup` gives what
is attached to one slot, again in document order; a slot nobody annotated has the
empty list.
-/

namespace WireSchema

/-- A constant: an integer, or a symbol that whoever compiles or runs the generated
code resolves. -/
inductive Literal where
  | int (value : Int64)
  | symbol (name : String)
  deriving DecidableEq, Inhabited

/-- The constant as written in generated code. -/
def Literal.toText : Literal → String
  | int value => Text.integer value.toInt
  | symbol name => name

/-- The kinds of directives. -/
inductive DirectiveKind where
  | renameType
  | overrideType
  | fixedValue
  | varLenArray
  | unionVariant
  | enumeration
  deriving DecidableEq, Repr, Inhabited

namespace DirectiveKind

/-- All kinds.  A document may say a kind by its number, which is its place in this list,
counted from zero. -/
def all : List DirectiveKind :=
  [renameType, overrideType, fixedValue, varLenArray, unionVariant, enumeration]

/-- The kind as named in documents. -/
def name : DirectiveKind → String
  | renameType => "rename_type"
  | overrideType => "rewrite_type"
  | fixedValue => "fixed_value"
  | varLenArray => "var_len_array"
  | unionVariant => "union_variant"
  | enumeration => "enum"

/-- The kind of the given name. -/
def ofName? (text : String) : Option DirectiveKind :=
  all.find? (·.name == text)

/-- The kind of the given number. -/
def ofNumber? (number : Nat) : Option DirectiveKind :=
  all[number]?

theorem ofName?_name (kind : DirectiveKind) : ofName? kind.name = some kind := by
  cases kind <;> decide +kernel

theorem name_of_ofName? {text : String} {kind : DirectiveKind} (h : ofName? text = some kind) :
    kind.name = text := by
  have hName := List.find?_some h
  exact eq_of_beq hName

end DirectiveKind

/-- What is said about a type or a field. -/
inductive Directive where
  /-- The generated type has this name, without the keyword. -/
  | renameType (name : String)
  /-- The generated member has this type. -/
  | overrideType (spec : String)
  /-- The source value is ignored and the constant written instead. -/
  | fixedValue (value : Literal)
  /-- The field points to as many elements as the sibling `lengthField` says. -/
  | varLenArray (lengthField : String)
  /-- The union member written is the one paired with the value of `discriminator`. -/
  | unionVariant (discriminator : String) (mapping : List (Literal × String))
  /-- The field holds a value of an enumeration. -/
  | enumeration (typeName : Option String)
  deriving DecidableEq, Inhabited

/-- The kind of a directive. -/
def Directive.kind : Directive → DirectiveKind
  | renameType _ => .renameType
  | overrideType _ => .overrideType
  | fixedValue _ => .fixedValue
  | varLenArray _ => .varLenArray
  | unionVariant .. => .unionVariant
  | enumeration _ => .enumeration

/-- The slot of directives on the type itself. -/
def typeSlot : String := "."

/-- A directive and the slot of a type it is attached to. -/
structure Note where
  owner : String
  slot : String
  directive : Directive
  deriving DecidableEq, Inhabited

/-- The notes of a document, in order. -/
structure DirectiveIndex where
  notes : List Note
  deriving Inhabited

namespace DirectiveIndex

/-- The index without notes. -/
def empty : DirectiveIndex := ⟨[]⟩

/-- The directives on a slot, in document order. -/
def lookup (index : DirectiveIndex) (owner slot : String) : List Directive :=
  (index.notes.filter fun note => note.owner == owner && note.slot == slot).map Note.directive

/-- The directives on the type itself. -/
def typeLevel (index : DirectiveIndex) (owner : String) : List Directive :=
  index.lookup owner typeSlot

/-- The number of notes. -/
def size (index : DirectiveIndex) : Nat :=
  index.notes.length

/-- Whether there are no notes. -/
def isEmpty (index : DirectiveIndex) : Bool :=
  index.notes.isEmpty

end DirectiveIndex

end WireSchema
