import WireSchema.Compile.Program
import WireSchema.Proofs.WorklistSearch

/-!
# What lowering sees of a graph and its directives

Types are lowered one at a time, and whatever lowering wants to know of another type it asks
the graph for by name.  It never sees where in the graph a type is.  Directives came into the
graph with the members they are on; lowering only asks which types are renamed.  So two namings
that get the same answers are alike: each pass over each type gives the same result or fails
with the same error.

## Main results

* `Naming.Alike.packedType_eq`, `Naming.Alike.encodeFunction_eq`, `Naming.Alike.sizeFunction_eq`,
  `Naming.Alike.entryPoint_eq`: what a type is made into.
-/

namespace WireSchema

/-- The entries say the same of a type, apart from its place among the others. -/
structure TypeEntry.Alike (entry other : TypeEntry) : Prop where
  outline : entry.toOutline = other.toOutline
  varLen : entry.varLen = other.varLen

theorem TypeEntry.Alike.refl (entry : TypeEntry) : entry.Alike entry :=
  ⟨rfl, rfl⟩

theorem TypeEntry.Alike.name {entry other : TypeEntry} (h : entry.Alike other) :
    entry.name = other.name :=
  congrArg Outline.name h.outline

theorem TypeEntry.Alike.isUnion {entry other : TypeEntry} (h : entry.Alike other) :
    entry.isUnion = other.isUnion :=
  congrArg Outline.isUnion h.outline

/-- The graphs have the same types. -/
def TypeGraph.Alike (graph other : TypeGraph) : Prop :=
  ∀ name, (graph.find? name = none ∧ other.find? name = none) ∨
    ∃ entry twin, graph.find? name = some entry ∧ other.find? name = some twin ∧ entry.Alike twin

theorem TypeGraph.Alike.refl (graph : TypeGraph) : graph.Alike graph := by
  intro name
  cases hFind : graph.find? name with
  | none => exact .inl ⟨rfl, rfl⟩
  | some entry => exact .inr ⟨entry, entry, rfl, rfl, .refl entry⟩

/-- A member has alike types nested in it, or none in either graph. -/
theorem TypeGraph.Alike.nested? {graph other : TypeGraph} (h : graph.Alike other)
    (member : Member) :
    (graph.nested? member = none ∧ other.nested? member = none) ∨
      ∃ entry twin, graph.nested? member = some entry ∧ other.nested? member = some twin ∧
        entry.Alike twin := by
  unfold TypeGraph.nested?
  cases member.nested? with
  | none => exact .inl ⟨rfl, rfl⟩
  | some name => exact h name

/-- That stays so among the types that have what alike types have in common. -/
theorem TypeGraph.Alike.filter_nested? {graph other : TypeGraph} (h : graph.Alike other)
    (member : Member) (keep : TypeEntry → Bool)
    (hKeep : ∀ entry twin, entry.Alike twin → keep entry = keep twin) :
    ((graph.nested? member).filter keep = none ∧ (other.nested? member).filter keep = none) ∨
      ∃ entry twin, (graph.nested? member).filter keep = some entry ∧
        (other.nested? member).filter keep = some twin ∧ entry.Alike twin := by
  rcases h.nested? member with ⟨hNone, hOther⟩ | ⟨entry, twin, hEntry, hTwin, hAlike⟩
  · rw [hNone, hOther]
    exact .inl ⟨rfl, rfl⟩
  · rw [hEntry, hTwin, Option.filter_some, Option.filter_some, hKeep entry twin hAlike]
    split
    · exact .inr ⟨entry, twin, rfl, rfl, hAlike⟩
    · exact .inl ⟨rfl, rfl⟩

namespace Naming

/-- The same choices, made for another graph. -/
def onGraph (naming : Naming) (other : TypeGraph) : Naming :=
  { naming with graph := other }

/-- The namings have the same types, and make the same choices for their names. -/
structure Alike (naming other : Naming) : Prop where
  graph : naming.graph.Alike other.graph
  renamed : other.renamed? = naming.renamed?
  settings : other.settings = naming.settings
  service : other.service = naming.service

theorem alike_onGraph {naming : Naming} {other : TypeGraph} (h : naming.graph.Alike other) :
    naming.Alike (naming.onGraph other) :=
  ⟨h, rfl, rfl, rfl⟩

namespace Alike

variable {naming other : Naming} (h : naming.Alike other)

include h

theorem entry_outcome (source : String) :
    SameOutcome TypeEntry.Alike (naming.entry source) (other.entry source) := by
  unfold Naming.entry
  rcases h.graph source with ⟨hNone, hOther⟩ | ⟨entry, twin, hEntry, hTwin, hAlike⟩
  · rw [hNone, hOther]
    exact .error _
  · rw [hEntry, hTwin]
    exact .ok hAlike

/-! ## Names -/

theorem coreName_eq : other.coreName = naming.coreName := by
  unfold Naming.coreName
  rw [h.settings, h.service]

theorem functionName_eq : other.functionName = naming.functionName := by
  unfold Naming.functionName
  rw [h.coreName_eq, h.settings, h.service]

theorem typeName_eq (source : String) : other.typeName source = naming.typeName source := by
  refine ((h.entry_outcome source).bind_eq fun entry twin _ _ hAlike => ?_).symm
  have hKind : entry.kind = twin.kind := congrArg Outline.kind hAlike.outline
  rw [hKind, h.renamed, h.settings]

/-! ## Types -/

theorem recordRef_eq (source : String) : other.recordRef source = naming.recordRef source := by
  refine ((h.entry_outcome source).bind_eq fun entry twin _ _ hAlike => ?_).symm
  have hKind : entry.kind = twin.kind := congrArg Outline.kind hAlike.outline
  rw [hKind, h.typeName_eq]

theorem representation_eq (member : Member) :
    other.representation member = naming.representation member := by
  unfold Naming.representation
  simp only [h.recordRef_eq]

theorem packedMember_eq (member : Member) :
    other.packedMember member = naming.packedMember member := by
  unfold Naming.packedMember Naming.placement
  simp only [h.representation_eq]

/-- A type is packed alike. -/
theorem packedType_eq {entry twin : TypeEntry} (hAlike : entry.Alike twin) :
    other.packedType twin = naming.packedType entry := by
  unfold Naming.packedType
  rw [hAlike.outline, h.typeName_eq, funext h.packedMember_eq]

/-! ## Steps -/

theorem copy_eq (owner : Outline) (member : Member) :
    other.copy owner member = naming.copy owner member := by
  unfold Naming.copy
  rcases h.graph.nested? member with ⟨hNone, hOther⟩ | ⟨entry, twin, hEntry, hTwin, hAlike⟩
  · rw [hNone, hOther]
  · rw [hEntry, hTwin]
    dsimp only
    rw [hAlike.isUnion, hAlike.name, hAlike.varLen, h.functionName_eq]

theorem varLenStep_eq (owner : Outline) (member : Member) (lengthField : String) :
    other.varLenStep owner member lengthField = naming.varLenStep owner member lengthField := by
  unfold Naming.varLenStep
  rw [h.representation_eq]
  rcases h.graph.nested? member with ⟨hNone, hOther⟩ | ⟨entry, twin, hEntry, hTwin, hAlike⟩
  · rw [hNone, hOther]
  · rw [hEntry, hTwin]
    dsimp only
    rw [hAlike.isUnion, hAlike.name, hAlike.varLen, h.functionName_eq]

theorem unionArm_eq (union : Outline) (value : Literal) (target : String) :
    other.unionArm union value target = naming.unionArm union value target := by
  unfold Naming.unionArm
  simp only [h.copy_eq]

theorem unionStep_eq (owner : Outline) (member : Member) (discriminator : String)
    (mapping : List (Literal × String)) :
    other.unionStep owner member discriminator mapping =
      naming.unionStep owner member discriminator mapping := by
  unfold Naming.unionStep
  rcases h.graph.filter_nested? member (fun entry => entry.isUnion)
    (fun _ _ hAlike => hAlike.isUnion) with
    ⟨hNone, hOther⟩ | ⟨entry, twin, hEntry, hTwin, hAlike⟩
  · rw [hNone, hOther]
  · rw [hEntry, hTwin]
    dsimp only
    rw [hAlike.outline, h.recordRef_eq]
    simp only [h.unionArm_eq]

theorem stepOf_eq (owner : Outline) (member : Member) (directives : List Directive) :
    other.stepOf owner member directives = naming.stepOf owner member directives := by
  induction directives with
  | nil => rw [Naming.stepOf, Naming.stepOf, h.copy_eq]
  | cons directive rest ih =>
      cases directive <;>
        simp only [Naming.stepOf, h.varLenStep_eq, h.unionStep_eq, ih]

/-- A structure is encoded by the same function. -/
theorem encodeFunction_eq {entry twin : TypeEntry} (hAlike : entry.Alike twin) :
    other.encodeFunction twin = naming.encodeFunction entry := by
  have hStep : other.step entry.toOutline = naming.step entry.toOutline :=
    funext fun member => h.stepOf_eq entry.toOutline member member.directives
  unfold Naming.encodeFunction
  rw [← hAlike.outline, ← hAlike.varLen, h.typeName_eq, h.functionName_eq, hStep]

/-! ## Sizes -/

theorem sizeTerm?_eq (owner : Outline) (member : Member) :
    other.sizeTerm? owner member = naming.sizeTerm? owner member := by
  unfold Naming.sizeTerm?
  rw [h.representation_eq]
  rcases h.graph.filter_nested? member TypeEntry.varLen (fun _ _ hAlike => hAlike.varLen) with
    ⟨hNone, hOther⟩ | ⟨entry, twin, hEntry, hTwin, hAlike⟩
  · rw [hNone, hOther]
    cases member.lengthField? <;> rfl
  · rw [hEntry, hTwin]
    cases member.lengthField? with
    | some lengthField => rfl
    | none =>
        dsimp only
        rw [hAlike.isUnion, hAlike.name, h.typeName_eq, h.functionName_eq]

theorem sizeTermsOf_eq (source : String) :
    other.sizeTermsOf source = naming.sizeTermsOf source := by
  refine ((h.entry_outcome source).bind_eq fun entry twin _ _ hAlike => ?_).symm
  unfold Naming.sizeTerms
  rw [hAlike.outline, funext (h.sizeTerm?_eq twin.toOutline)]

/-- A type has the same size function. -/
theorem sizeFunction_eq (source : String) (terms : List SizeTerm) :
    other.sizeFunction source terms = naming.sizeFunction source terms := by
  unfold Naming.sizeFunction Naming.parameterName
  rw [h.typeName_eq, h.functionName_eq, h.coreName_eq]

/-- The search for types that need a size function goes the same ways. -/
theorem sizeSearch_visit_eq (source : String) :
    other.sizeSearch.visit source = naming.sizeSearch.visit source := by
  unfold Naming.sizeSearch
  dsimp only
  rw [h.sizeTermsOf_eq]

/-! ## Entry points -/

/-- A root has the same entry point. -/
theorem entryPoint_eq {entry twin : TypeEntry} (hAlike : entry.Alike twin) :
    other.entryPoint twin = naming.entryPoint entry := by
  unfold Naming.entryPoint
  rw [← hAlike.name, ← hAlike.varLen, h.typeName_eq, h.functionName_eq]

theorem entryPoints_eq (roots : List TypeEntry) :
    roots.mapM other.entryPoint = roots.mapM naming.entryPoint := by
  have hPoint : other.entryPoint = naming.entryPoint :=
    funext fun entry => h.entryPoint_eq (.refl entry)
  rw [hPoint]

/-! ## The whole of one graph -/

section SameGraph

variable (hGraph : other.graph = naming.graph)

include hGraph

theorem packedTypes_eq : other.packedTypes = naming.packedTypes := by
  have hTypes : other.packedType = naming.packedType :=
    funext fun entry => h.packedType_eq (.refl entry)
  unfold Naming.packedTypes
  rw [hTypes, hGraph]

theorem encodeFunctions_eq : other.encodeFunctions = naming.encodeFunctions := by
  have hFunctions : other.encodeFunction = naming.encodeFunction :=
    funext fun entry => h.encodeFunction_eq (.refl entry)
  unfold Naming.encodeFunctions
  rw [hFunctions, hGraph]

theorem sizeFunctions_eq : other.sizeFunctions = naming.sizeFunctions := by
  have hDomain : other.sizeSearch.domain = naming.sizeSearch.domain :=
    congrArg (fun graph => graph.entries.map fun entry : TypeEntry => entry.name) hGraph
  unfold Naming.sizeFunctions
  rw [Worklist.eq_of_visit hDomain h.sizeSearch_visit_eq, hGraph]
  simp only [h.sizeFunction_eq]

end SameGraph

end Alike

end Naming

end WireSchema
