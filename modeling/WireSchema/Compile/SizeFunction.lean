import WireSchema.Compile.Representation
import WireSchema.Search.Worklist
import WireSchema.TypeGraph.Order

/-!
# Size functions

A variable-length type has a size function, which adds to the size of its packed type
what its members store in the payload.  Only the types that an entry point can reach
through such members get one, and each comes after those it calls.
-/

namespace WireSchema.Naming

/-- What a member adds to the encoded size, if anything.  Variable-length data is not
supported as the element of an array and inside a union. -/
def sizeTerm? (naming : Naming) (owner : Outline) (member : Member) :
    Except CompileError (Option SizeTerm) :=
  if member.typeOverride?.isSome then .ok none
  else
    let varLenNested := (naming.graph.nested? member).filter TypeEntry.varLen
    match member.lengthField?, varLenNested with
    | some _, some _ => .error (.unsupportedNesting owner.name member.name)
    | some lengthField, none => do
      return some (.varLen member.name lengthField (← naming.representation member))
    | none, some nested =>
      if nested.isUnion || member.arrayLength?.isSome then
        .error (.unsupportedNesting owner.name member.name)
      else do
        let target ← naming.typeName nested.name
        let function ← naming.functionName .sizeOf nested.name
        return some (.nested member.name nested.name target function)
    | none, none => .ok none

/-- The terms of a type, in the order of its members. -/
def sizeTerms (naming : Naming) (owner : Outline) : Except CompileError (List SizeTerm) := do
  return (← owner.members.mapM (naming.sizeTerm? owner)).filterMap id

/-- The source type whose size function a term calls. -/
def callee? : SizeTerm → Option String
  | .nested _ source _ _ => some source
  | .varLen .. => none

/-- The terms of the type of the given name. -/
def sizeTermsOf (naming : Naming) (source : String) : Except CompileError (List SizeTerm) := do
  naming.sizeTerms (← naming.entry source).toOutline

theorem mem_names_of_sizeTermsOf {naming : Naming} {source : String} {terms : List SizeTerm}
    (h : naming.sizeTermsOf source = .ok terms) :
    source ∈ naming.graph.entries.map fun entry => entry.name := by
  unfold sizeTermsOf Naming.entry at h
  cases hFind : naming.graph.find? source with
  | none => simp [hFind, bind, Except.bind] at h
  | some entry =>
    unfold TypeGraph.find? at hFind
    have hName := List.find?_some hFind
    exact List.mem_map.2 ⟨entry, List.mem_of_find?_eq_some hFind, by simpa using hName⟩

/-- The search for the types that need a size function. -/
def sizeSearch (naming : Naming) : Worklist (List SizeTerm) CompileError where
  domain := naming.graph.entries.map fun entry => entry.name
  visit source :=
    match naming.sizeTermsOf source with
    | .ok terms => .ok (terms, terms.filterMap callee?)
    | .error e => .error e
  mem_domain {source found} h := by
    cases hTerms : naming.sizeTermsOf source with
    | ok terms => exact mem_names_of_sizeTermsOf hTerms
    | error e => simp [hTerms] at h

/-- The size function of a type with the given terms. -/
def sizeFunction (naming : Naming) (source : String) (terms : List SizeTerm) :
    Except CompileError SizeFunction := do
  let target ← naming.typeName source
  let function ← naming.functionName .sizeOf source
  let parameter ← naming.parameterName source
  return ⟨source, target, function, parameter, terms⟩

/-- All size functions. -/
def sizeFunctions (naming : Naming) : Except CompileError (List SizeFunction) := do
  let roots := naming.graph.rootEntries.filter TypeEntry.varLen
  let found ← naming.sizeSearch.run (roots.map fun entry => entry.name)
  let order := naming.graph.entriesOf (naming.graph.postOrder naming.graph.roots)
  let needed := order.filterMap fun entry =>
    (found.lookup entry.name).map fun terms => (entry.name, terms)
  needed.mapM fun (source, terms) => naming.sizeFunction source terms

end WireSchema.Naming
