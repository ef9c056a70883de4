import WireSchema.Directive.Basic
import WireSchema.Json

/-!
# The document of directives

Directives are written in a JSON document of annotations, an array of groups.  A group
is an object with the `name` of a type and its `annotations`, or an array of the two;
an entry is an object with the `field` it is attached to, the kind of directive under
`annotation`, and what that kind needs:

| directive                    | members                       |
|------------------------------|-------------------------------|
| `renameType`, `overrideType` | `type_override`               |
| `fixedValue`                 | `value`                       |
| `varLenArray`                | `length_field`                |
| `unionVariant`               | `discriminator`, `mapping`    |
| `enumeration`                | `enum_type`, null or left out |

A kind is written as its name, or as its number in the list of all kinds.  A constant is
an integer of 64 bits or a string.  Members of other names are ignored, and a group may
leave its `annotations` out.  Reading is all or nothing: one entry that breaks the format
and the document has no meaning.

## Definitions

* `DirectiveGroup.ofJson?`, `DirectiveEntry.ofJson?`, `DirectiveKind.ofJson?`: one piece of
  the document.
* `readGroups?`: the whole document.
* `DirectiveIndex.ofGroups`: its notes.
-/

namespace WireSchema

/-- An entry of a group. -/
structure DirectiveEntry where
  field : String
  directive : Directive
  deriving DecidableEq, Inhabited

/-- The entries for one type. -/
structure DirectiveGroup where
  name : String
  entries : List DirectiveEntry
  deriving DecidableEq, Inhabited

/-- A constant: a string, or an integer that fits 64 bits. -/
def Literal.ofJson? : Json → Option Literal
  | .int value =>
    if Int64.minValue.toInt ≤ value ∧ value ≤ Int64.maxValue.toInt then
      some (.int (Int64.ofInt value))
    else none
  | .string name => some (.symbol name)
  | _ => none

/-- A pair of a mapping: an array of a constant and the name of a union member. -/
def readPair? : Json → Option (Literal × String)
  | .array [value, .string name] => (Literal.ofJson? value).map (·, name)
  | _ => none

/-- The member `name` of an entry, which has to be a string. -/
def stringMember? (entry : Json) (name : String) : Option String :=
  (entry.member? name).bind Json.string?

/-- The optional type name of an `enum` entry. -/
def readEnumType? (entry : Json) : Option (Option String) :=
  match entry.member? "enum_type" with
  | none => some none
  | some .null => some none
  | some (.string name) => some (some name)
  | some _ => none

/-- The kind that a value stands for: a string names it, a natural number counts it. -/
def DirectiveKind.ofJson? : Json → Option DirectiveKind
  | .string text => ofName? text
  | .int (.ofNat number) => ofNumber? number
  | _ => none

/-- The directive of an entry, of the given kind. -/
def Directive.ofJson? (kind : DirectiveKind) (entry : Json) : Option Directive :=
  match kind with
  | .renameType => (stringMember? entry "type_override").map renameType
  | .overrideType => (stringMember? entry "type_override").map overrideType
  | .fixedValue => ((entry.member? "value").bind Literal.ofJson?).map fixedValue
  | .varLenArray => (stringMember? entry "length_field").map varLenArray
  | .unionVariant => do
    let discriminator ← stringMember? entry "discriminator"
    let pairs ← (entry.member? "mapping").bind Json.items?
    return unionVariant discriminator (← pairs.mapM readPair?)
  | .enumeration => (readEnumType? entry).map enumeration

/-- An entry of a group. -/
def DirectiveEntry.ofJson? (entry : Json) : Option DirectiveEntry := do
  let field ← stringMember? entry "field"
  let kind ← (entry.member? "annotation").bind DirectiveKind.ofJson?
  return ⟨field, ← Directive.ofJson? kind entry⟩

/-- The entries of a group, from the value under `annotations`. -/
def readEntries? (entries : Json) : Option (List DirectiveEntry) := do
  (← entries.items?).mapM DirectiveEntry.ofJson?

/-- A group of the document. -/
def DirectiveGroup.ofJson? : Json → Option DirectiveGroup
  | .array [.string name] => some ⟨name, []⟩
  | .array [.string name, entries] => (readEntries? entries).map (⟨name, ·⟩)
  | .object members => do
    let name ← stringMember? (.object members) "name"
    match members.lookup "annotations" with
    | none => return ⟨name, []⟩
    | some entries => return ⟨name, ← readEntries? entries⟩
  | _ => none

/-- The groups of a document. -/
def readGroups? (document : Json) : Option (List DirectiveGroup) := do
  (← document.items?).mapM DirectiveGroup.ofJson?

/-- The notes of a group, in order. -/
def DirectiveGroup.notes (group : DirectiveGroup) : List Note :=
  group.entries.map fun entry => ⟨group.name, entry.field, entry.directive⟩

/-- The index of a list of groups. -/
def DirectiveIndex.ofGroups (groups : List DirectiveGroup) : DirectiveIndex :=
  ⟨groups.flatMap DirectiveGroup.notes⟩

/-- The index of a document, if it keeps the format. -/
def DirectiveIndex.ofJson? (document : Json) : Option DirectiveIndex :=
  (readGroups? document).map ofGroups

end WireSchema
