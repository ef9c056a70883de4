import WireSchema.Compile.Program
import WireSchema.Rendering.Conversion
import WireSchema.Rendering.Declarations

/-!
# The code of a service

Both documents of a program together, and the whole way from declarations to code:
`generate` compiles a request and renders the program.  Nothing is rendered if the
request does not compile.
-/

namespace WireSchema

/-- The two documents of a service. -/
structure ServiceCode where
  declarations : Document
  conversion : Document
  deriving DecidableEq, Inhabited

/-- The code of a program. -/
def Program.render (program : Program) (settings : Settings) : ServiceCode :=
  ⟨program.declarationsDocument settings, program.conversionDocument settings⟩

/-- The code of a request. -/
def generate (declarations : Declarations) (index : DirectiveIndex) (settings : Settings)
    (request : Request) : Except CompileError ServiceCode :=
  (compile declarations index settings request).map fun program => program.render settings

end WireSchema
