import WireSchema.Compile.EncodeFunction
import WireSchema.Compile.SizeFunction
import WireSchema.Request
import WireSchema.TypeGraph.Build

/-!
# Compiling a request

`compile` builds the type graph of a request and turns it into a program: packed types
in declaration order, size functions, encode functions, and an entry point for each
root.  The parts are made in this order, and the first failure is the answer.  A union
cannot be a root.
-/

namespace WireSchema

/-- The entry point of a root type. -/
def Naming.entryPoint (naming : Naming) (entry : TypeEntry) : Except CompileError EntryPoint := do
  let size ←
    if entry.varLen then (naming.functionName .sizeOf entry.name).map EntrySize.dynamic
    else pure EntrySize.static
  let target ← naming.typeName entry.name
  let function ← naming.functionName .allocate entry.name
  let encoder ← naming.functionName .convert entry.name
  return ⟨entry.name, target, function, encoder, size, entry.varLen⟩

/-- The packed types of the graph, in declaration order. -/
def Naming.packedTypes (naming : Naming) : Except CompileError (List PackedType) :=
  (naming.graph.entriesOf naming.graph.declarationOrder).mapM naming.packedType

/-- The program of a type graph. -/
def programOf (graph : TypeGraph) (index : DirectiveIndex) (settings : Settings)
    (request : Request) : Except CompileError Program :=
  match graph.rootEntries.find? fun entry => entry.isUnion with
  | some union => .error (.unionRoot union.name)
  | none => do
    let naming := Naming.forService graph index settings request.service
    let types ← naming.packedTypes
    let sizeFunctions ← naming.sizeFunctions
    let encodeFunctions ← naming.encodeFunctions
    let entryPoints ← graph.rootEntries.mapM naming.entryPoint
    return {
      service := request.service
      includes := request.includes
      roots := request.roots
      types, sizeFunctions, encodeFunctions, entryPoints }

/-- The program of a request. -/
def compile (declarations : Declarations) (index : DirectiveIndex) (settings : Settings)
    (request : Request) : Except CompileError Program := do
  let graph ← TypeGraph.build declarations index request.roots
  programOf graph index settings request

end WireSchema
