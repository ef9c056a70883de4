import WireSchema.Proofs.AgreeingInputs
import WireSchema.Proofs.MatchingLayouts
import WireSchema.Proofs.MatchingPrograms

/-!
# Lowering matching types

Two compiles lower a type alike if its members match: the first directives that count are the
same, and so are the types nested in it, up to their names in generated code.  Names are where
two compiles differ, and where either can fail while the other does not.  So the lemmas here
are about two lowerings that both succeed.

## Main results

* `Naming.packedType_bothOk`, `Naming.encodeFunction_bothOk`, `Naming.sizeTerms_bothOk`: what
  matching types are lowered to matches.
-/

namespace WireSchema

/-! ## Lowering -/

namespace Naming

variable {naming twin : Naming} {included : String → Prop} {member counterpart : Member}

/-- Names can be anything. -/
theorem names_bothOk {α β ε : Type} {x : Except ε α} {y : Except ε β} :
    BothOk (fun _ _ => True) x y :=
  fun _ _ _ _ => trivial

theorem recordRef_bothOk {name : String} (hName : included name) :
    BothOk (fun record other => record.source = other.source ∧ included record.source)
      (naming.recordRef name) (twin.recordRef name) := by
  intro record other hRecord hOther
  have hSource := (recordRef_eq_ok hRecord).1
  have hSame := (recordRef_eq_ok hOther).1
  rw [hSource, hSame]
  exact ⟨rfl, hName⟩

theorem representation_bothOk (h : member.Matches included counterpart) :
    BothOk (Representation.Matches included) (naming.representation member)
      (twin.representation counterpart) := by
  have hNested := h.nested
  unfold Naming.representation
  rw [h.nested?_eq] at hNested ⊢
  rw [h.typeOverride?_eq, h.type]
  cases counterpart.typeOverride? with
  | some spec => exact .ok (.primitive spec)
  | none =>
      cases hName : counterpart.nested? with
      | none => exact .ok (.primitive _)
      | some name =>
          exact (recordRef_bothOk (hNested name hName)).map fun _ _ hSame =>
            .record hSame.1 hSame.2

theorem placement_bothOk (h : member.Matches included counterpart) :
    BothOk (Placement.Matches included) (naming.placement member) (twin.placement counterpart) := by
  unfold Naming.placement
  rw [h.typeOverride?_eq, h.lengthField?_eq]
  split
  · exact (representation_bothOk h).map fun _ _ hMatches => .descriptor hMatches
  · exact (representation_bothOk h).map fun _ _ hMatches => .value hMatches

theorem packedMember_bothOk (h : member.Matches included counterpart) :
    BothOk (PackedMember.Matches included) (naming.packedMember member)
      (twin.packedMember counterpart) := by
  refine (placement_bothOk h).bind fun _ _ hPlacement => ?_
  exact .pure ⟨h.name, hPlacement, h.arrayLength?_eq⟩

theorem packedType_bothOk {entry other : TypeEntry} (h : entry.Matches included other) :
    BothOk (PackedType.Matches included) (naming.packedType entry) (twin.packedType other) := by
  have hMembers : List.Forall₂ (fun member counterpart => BothOk (PackedMember.Matches included)
      (naming.packedMember member) (twin.packedMember counterpart)) entry.members other.members :=
    h.members.imp fun _ _ hMember => packedMember_bothOk hMember
  refine names_bothOk.bind fun _ _ _ => (BothOk.mapM hMembers).bind fun _ _ hPacked => ?_
  exact .pure ⟨h.name, h.kind, hPacked⟩

theorem fixedStep_matches (h : member.Matches included counterpart) (value : Literal) :
    (fixedStep member value).Matches included (fixedStep counterpart value) := by
  unfold fixedStep
  rw [h.name, h.arrayLength?_eq]
  split
  · exact .fixedFill _ _
  · exact .fixedScalar _ _

section Graph

variable (hGraph : naming.graph.Matches twin.graph included) {owner other : Outline}

include hGraph

theorem copy_bothOk (h : member.Matches included counterpart) :
    BothOk (Copy.Matches included) (naming.copy owner member) (twin.copy other counterpart) := by
  have hPrimitive : Copy.Matches included counterpart.primitiveCopy counterpart.primitiveCopy := by
    unfold Member.primitiveCopy
    split
    · exact .scalar
    · exact .array _
  unfold Naming.copy
  rw [h.typeOverride?_eq, h.arrayLength?_eq]
  dsimp only
  by_cases hOverride : counterpart.typeOverride?.isSome = true
  · rw [if_pos hOverride, if_pos hOverride]
    exact .ok hPrimitive
  · rw [if_neg hOverride, if_neg hOverride]
    rcases hGraph.nested? h with ⟨hNone, hOther⟩ | ⟨nested, same, hNested, hOther, hMatches⟩
    · rw [hNone, hOther]
      exact .ok hPrimitive
    · rw [hNested, hOther]
      dsimp only
      rw [← hMatches.isUnion_eq, ← hMatches.name, ← hMatches.varLen]
      by_cases hUnion : nested.isUnion = true
      · rw [if_pos hUnion]
        exact .error_left _
      · rw [if_neg hUnion, if_neg hUnion]
        refine names_bothOk.bind fun function name _ => ?_
        cases counterpart.arrayLength? with
        | none => exact .pure (.record function name _ hMatches.mem)
        | some length =>
            dsimp only
            split
            · exact .error_left _
            · exact .pure (.recordArray function name length hMatches.mem)

theorem varLenStep_bothOk (h : member.Matches included counterpart) (lengthField : String) :
    BothOk (Step.Matches included) (naming.varLenStep owner member lengthField)
      (twin.varLenStep other counterpart lengthField) := by
  have hElement : BothOk (Representation.Matches included) (naming.representation member)
      (twin.representation counterpart) := representation_bothOk h
  have hScalar : Copy.Matches included .scalar .scalar := .scalar
  unfold Naming.varLenStep
  rw [h.name]
  rcases hGraph.nested? h with ⟨hNone, hOther⟩ | ⟨nested, same, hNested, hOther, hMatches⟩
  · rw [hNone, hOther]
    refine (BothOk.pure hScalar).bind fun _ _ hCopy => hElement.bind fun _ _ _ => ?_
    exact .pure (.varLen _ _ _ _ hCopy)
  · rw [hNested, hOther]
    dsimp only
    rw [← hMatches.isUnion_eq, ← hMatches.name, ← hMatches.varLen]
    by_cases hUnion : nested.isUnion = true
    · rw [if_pos hUnion]
      exact .error_left _
    · rw [if_neg hUnion, if_neg hUnion]
      split
      · exact .error_left _
      · refine names_bothOk.bind fun function name _ => ?_
        have hRecord : Copy.Matches included (.record nested.name function false)
          (.record nested.name name false) := .record _ _ _ hMatches.mem
        refine (BothOk.pure hRecord).bind fun _ _ hCopy => hElement.bind fun _ _ _ => ?_
        exact .pure (.varLen _ _ _ _ hCopy)

theorem unionArm_bothOk {union same : TypeEntry} (h : union.Matches included same)
    (value : Literal) (target : String) :
    BothOk (UnionArm.Matches included) (naming.unionArm union.toOutline value target)
      (twin.unionArm same.toOutline value target) := by
  unfold Naming.unionArm
  rcases h.member? target with ⟨hNone, _⟩ | ⟨variant, counterpart, hVariant, hSame, hMatches⟩
  · rw [hNone]
    exact .error_left _
  · rw [hVariant, hSame]
    exact (copy_bothOk hGraph hMatches).bind fun _ _ hCopy => .pure ⟨rfl, rfl, hCopy⟩

theorem unionStep_bothOk (h : member.Matches included counterpart) (discriminator : String)
    (mapping : List (Literal × String)) :
    BothOk (Step.Matches included) (naming.unionStep owner member discriminator mapping)
      (twin.unionStep other counterpart discriminator mapping) := by
  unfold Naming.unionStep
  rw [h.name, h.arrayLength?_eq]
  rcases hGraph.nested? h with ⟨hNone, hOther⟩ | ⟨union, same, hUnion, hSame, hMatches⟩
  · rw [hNone]
    exact .error_left _
  · rw [hUnion, hSame, Option.filter_some, Option.filter_some, ← hMatches.isUnion_eq]
    by_cases hKind : union.isUnion = true
    · rw [if_pos hKind, if_pos hKind]
      dsimp only
      rw [← hMatches.name]
      split
      · exact .error_left _
      · have hArms : List.Forall₂ (fun pair other => BothOk (UnionArm.Matches included)
            (naming.unionArm union.toOutline pair.1 pair.2)
            (twin.unionArm same.toOutline other.1 other.2)) mapping mapping :=
          List.forall₂_same.2 fun pair _ => unionArm_bothOk hGraph hMatches pair.1 pair.2
        refine (BothOk.mapM hArms).bind fun arms others hMade => ?_
        refine (recordRef_bothOk hMatches.mem).bind fun record otherRecord hRecord => ?_
        exact .pure (.union _ _ hRecord.1 hRecord.2 hMade)
    · rw [if_neg hKind]
      exact .error_left _

/-- Matching members are encoded by matching steps. -/
theorem step_bothOk (h : member.Matches included counterpart) :
    BothOk (Step.Matches included) (naming.step owner member) (twin.step other counterpart) := by
  have hCopy : BothOk (Step.Matches included)
      ((naming.copy owner member).map (.assign member.name))
      ((twin.copy other counterpart).map (.assign counterpart.name)) := by
    rw [h.name]
    exact (copy_bothOk hGraph h).map fun _ _ hMatches => .assign _ hMatches
  have hDecisive := h.decisive?_eq
  unfold Member.decisive? at hDecisive
  unfold Naming.step
  rw [stepOf_eq, stepOf_eq, hDecisive]
  cases counterpart.directives.find? counterpart.decides with
  | none => exact hCopy
  | some directive =>
      cases directive with
      | fixedValue value => exact .ok (fixedStep_matches h value)
      | varLenArray lengthField => exact varLenStep_bothOk hGraph h lengthField
      | unionVariant discriminator mapping => exact unionStep_bothOk hGraph h discriminator mapping
      | renameType name => exact hCopy
      | overrideType spec => exact hCopy
      | enumeration typeName => exact hCopy

theorem encodeFunction_bothOk {entry same : TypeEntry} (h : entry.Matches included same) :
    BothOk (EncodeFunction.Matches included) (naming.encodeFunction entry)
      (twin.encodeFunction same) := by
  have hSteps : List.Forall₂ (fun member counterpart => BothOk (Step.Matches included)
      (naming.step entry.toOutline member) (twin.step same.toOutline counterpart))
      entry.members same.members :=
    h.members.imp fun _ _ hMember => step_bothOk hGraph hMember
  refine names_bothOk.bind fun _ _ _ => names_bothOk.bind fun _ _ _ => ?_
  exact (BothOk.mapM hSteps).bind fun _ _ hMade => .pure ⟨h.name, hMade⟩

/-- Matching members add the same to encoded sizes. -/
theorem sizeTerm?_bothOk (h : member.Matches included counterpart) :
    BothOk (Option.Rel (SizeTerm.Matches included)) (naming.sizeTerm? owner member)
      (twin.sizeTerm? other counterpart) := by
  have hElement : BothOk (Representation.Matches included) (naming.representation member)
      (twin.representation counterpart) := representation_bothOk h
  unfold Naming.sizeTerm?
  rw [h.typeOverride?_eq, h.lengthField?_eq, h.arrayLength?_eq, h.name]
  dsimp only
  by_cases hOverride : counterpart.typeOverride?.isSome = true
  · rw [if_pos hOverride, if_pos hOverride]
    exact .ok .none
  · rw [if_neg hOverride, if_neg hOverride]
    rcases hGraph.nestedVarLen? h with ⟨hNone, hOther⟩ | ⟨nested, same, hNested, hSame, hMatches⟩
    · rw [hNone, hOther]
      cases counterpart.lengthField? with
      | none => exact .ok .none
      | some lengthField =>
          exact hElement.bind fun _ _ _ => .pure (.some (.varLen _ _ _ _))
    · rw [hNested, hSame]
      cases counterpart.lengthField? with
      | some lengthField => exact .error_left _
      | none =>
          dsimp only
          rw [← hMatches.isUnion_eq, ← hMatches.name]
          split
          · exact .error_left _
          · refine names_bothOk.bind fun _ _ _ => names_bothOk.bind fun _ _ _ => ?_
            exact .pure (.some (.nested _ _ _ _ _ hMatches.mem))

theorem sizeTerms_bothOk {entry same : TypeEntry} (h : entry.Matches included same) :
    BothOk (List.Forall₂ (SizeTerm.Matches included)) (naming.sizeTerms entry.toOutline)
      (twin.sizeTerms same.toOutline) := by
  have hTerms : List.Forall₂ (fun member counterpart =>
      BothOk (Option.Rel (SizeTerm.Matches included)) (naming.sizeTerm? entry.toOutline member)
        (twin.sizeTerm? same.toOutline counterpart)) entry.members same.members :=
    h.members.imp fun _ _ hMember => sizeTerm?_bothOk hGraph hMember
  refine (BothOk.mapM hTerms).bind fun parts others hParts => .pure ?_
  induction hParts with
  | nil => exact .nil
  | cons hHead _ ih =>
      cases hHead with
      | none => exact ih
      | some hTerm => exact .cons hTerm ih

end Graph

end Naming

end WireSchema
