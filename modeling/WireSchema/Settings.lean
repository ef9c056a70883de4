import WireSchema.Text.Identifier

/-!
# Settings

Naming and rendering choices shared by all services of a project, with the defaults
of the CHRE and CHPP interfaces.
-/

namespace WireSchema

/-- The choices; each field has its default. -/
structure Settings where
  /-- What source type names begin with. -/
  apiPrefix : String := "chre"
  /-- What generated type names begin with instead. -/
  typePrefix : String := "Chpp"
  /-- What generated function names begin with. -/
  functionPrefix : String := "chpp"
  /-- The type of an offset and length descriptor. -/
  offsetType : String := "struct ChppOffset"
  /-- The text at the top of both documents. -/
  license : Option String := none
  /-- What every declarations document includes. -/
  headerIncludes : List String := ["chpp/macros.h", "chre_api/chre/version.h"]
  /-- The generator that the notice names. -/
  generator : String := "chppgen"
  deriving DecidableEq, Inhabited

/-- What generated function names end in. -/
def Settings.functionSuffix (settings : Settings) : String :=
  "From" ++ Text.upperFirst settings.apiPrefix

end WireSchema
