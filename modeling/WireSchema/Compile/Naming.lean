import WireSchema.Compile.Error
import WireSchema.Program
import WireSchema.Settings
import WireSchema.TypeGraph.Basic

/-!
# Generated names

A source type is called `<api prefix><Service><Core>`.  Its packed type keeps the name
with the type prefix in place of the API prefix, unless a directive renames it.  The
functions for it are called

    <function prefix><Service><role><Core>From<Api prefix>

where the role is `Convert` for the encode function, `SizeOf` for the size function
and empty for the entry point.
-/

namespace WireSchema

/-- What a generated function is for. -/
inductive FunctionRole where
  | convert
  | sizeOf
  | allocate
  deriving DecidableEq, Repr, Inhabited

/-- The part of a function name that tells its role. -/
def FunctionRole.infixText : FunctionRole → String
  | convert => "Convert"
  | sizeOf => "SizeOf"
  | allocate => ""

/-- What names are made from. -/
structure Naming where
  graph : TypeGraph
  index : DirectiveIndex
  settings : Settings
  /-- The service, its first character in upper case. -/
  service : String

namespace Naming

/-- The naming of a service. -/
def forService (graph : TypeGraph) (index : DirectiveIndex) (settings : Settings)
    (service : String) : Naming :=
  ⟨graph, index, settings, Text.upperFirst service⟩

/-- The type of the graph with the given name. -/
def entry (naming : Naming) (source : String) : Except CompileError TypeEntry :=
  match naming.graph.find? source with
  | some entry => .ok entry
  | none => .error (.unknownType source)

/-- The name that the first `renameType` gives a type. -/
def renamed? (naming : Naming) (source : String) : Option String :=
  (naming.index.typeLevel source).findSome? fun
    | .renameType name => some name
    | _ => none

/-- The generated type, with its keyword. -/
def typeName (naming : Naming) (source : String) : Except CompileError String := do
  let keyword := (← naming.entry source).kind.keyword
  match naming.renamed? source with
  | some name => return keyword ++ " " ++ name
  | none =>
    match Text.afterPrefix? naming.settings.apiPrefix source with
    | some rest => return keyword ++ " " ++ naming.settings.typePrefix ++ rest
    | none => throw (.namingConvention source naming.settings.apiPrefix)

/-- The reference to the generated type. -/
def recordRef (naming : Naming) (source : String) : Except CompileError RecordRef := do
  let entry ← naming.entry source
  return ⟨source, ← naming.typeName source, entry.kind⟩

/-- The source name without the API prefix and the service. -/
def coreName (naming : Naming) (source : String) : Except CompileError String :=
  match (Text.afterPrefix? naming.settings.apiPrefix source).bind
      (Text.afterPrefix? naming.service) with
  | some core => .ok core
  | none => .error (.structureNaming source naming.settings.apiPrefix naming.service)

/-- The name of a function for a source type. -/
def functionName (naming : Naming) (role : FunctionRole) (source : String) :
    Except CompileError String := do
  let core ← naming.coreName source
  return naming.settings.functionPrefix ++ naming.service ++ role.infixText ++ core ++
    naming.settings.functionSuffix

/-- The name of a size function's parameter. -/
def parameterName (naming : Naming) (source : String) : Except CompileError String := do
  return Text.lowerFirst (← naming.coreName source)

end Naming

end WireSchema
