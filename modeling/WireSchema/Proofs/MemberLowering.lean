import WireSchema.Compile.EncodeFunction
import WireSchema.Compile.SizeFunction
import WireSchema.Proofs.Outcome

/-!
# How one member is lowered

A member is lowered three times: to its place in the packed type, to the step that
encodes it, and to the term that it adds to an encoded size.  For each of the three
there is one theorem that lists all ways to succeed, so that no later proof unfolds the
lowering itself.

The step depends on the first directive that speaks about encoding.
`Member.decisive?` is that directive; the other two views do not ask for it.

## Main results

* `Naming.packedMember_eq_ok`: the ways to be placed.
* `Naming.step_eq_ok`: the ways to be encoded, by the decisive directive; with
  `Naming.copy_eq_ok`, `Naming.varLenStep_eq_ok` and `Naming.unionStep_eq_ok`.
* `Naming.sizeTerm?_eq_ok`: the ways to count.
-/

namespace WireSchema

/-- Whether a directive on the member decides its step: an overridden type makes room for
constants only. -/
def Member.decides (member : Member) : Directive → Bool
  | .fixedValue _ => true
  | .varLenArray _ => member.typeOverride?.isNone
  | .unionVariant .. => member.typeOverride?.isNone
  | _ => false

/-- The directive that decides the step. -/
def Member.decisive? (member : Member) : Option Directive :=
  member.directives.find? member.decides

/-- Whether the member is placed as a descriptor. -/
def Member.isDescribed (member : Member) : Bool :=
  member.typeOverride?.isNone && member.lengthField?.isSome

/-- How a value that has no encode function gets into its place. -/
def Member.primitiveCopy (member : Member) : Copy :=
  match member.arrayLength? with
  | none => .scalar
  | some length => .array length

namespace Naming

variable {naming : Naming} {owner : Outline} {member : Member}

theorem entry_eq_ok {source : String} {entry : TypeEntry} :
    naming.entry source = .ok entry ↔ naming.graph.find? source = some entry := by
  unfold Naming.entry
  split <;> simp_all

theorem recordRef_eq_ok {source : String} {ref : RecordRef}
    (h : naming.recordRef source = .ok ref) :
    ref.source = source ∧
      ∃ entry, naming.graph.find? source = some entry ∧ ref.kind = entry.kind := by
  obtain ⟨entry, hEntry, h⟩ := bind_eq_ok.1 h
  obtain ⟨target, _, h⟩ := bind_eq_ok.1 h
  obtain rfl := pure_eq_ok.1 h
  exact ⟨rfl, entry, entry_eq_ok.1 hEntry, rfl⟩

/-! ## Places -/

theorem representation_eq_ok {representation : Representation}
    (h : naming.representation member = .ok representation) :
    (∃ spec, member.typeOverride? = some spec ∧ representation = .primitive spec) ∨
    (∃ nested ref, member.typeOverride? = none ∧ member.nested? = some nested ∧
      naming.recordRef nested = .ok ref ∧ representation = .record ref) ∨
    (member.typeOverride? = none ∧ member.nested? = none ∧
      representation = .primitive member.type.unqualifiedBase) := by
  unfold Naming.representation at h
  split at h
  · rename_i spec hOverride
    exact .inl ⟨spec, hOverride, (Except.ok.inj h).symm⟩
  · rename_i nested hOverride hNested
    obtain ⟨ref, hRef, rfl⟩ := map_eq_ok.1 h
    exact .inr (.inl ⟨nested, ref, hOverride, hNested, hRef, rfl⟩)
  · rename_i hOverride hNested
    exact .inr (.inr ⟨hOverride, hNested, (Except.ok.inj h).symm⟩)

theorem packedMember_eq_ok {packed : PackedMember} (h : naming.packedMember member = .ok packed) :
    packed.name = member.name ∧ packed.arrayLength = member.arrayLength? ∧
      ∃ representation, naming.representation member = .ok representation ∧
        packed.placement =
          if member.isDescribed then .descriptor representation else .value representation := by
  obtain ⟨placement, hPlacement, h⟩ := bind_eq_ok.1 h
  obtain rfl := pure_eq_ok.1 h
  refine ⟨rfl, rfl, ?_⟩
  unfold Naming.placement at hPlacement
  split at hPlacement <;> rename_i hCond
  · obtain ⟨representation, hRepresentation, rfl⟩ := map_eq_ok.1 hPlacement
    exact ⟨representation, hRepresentation, (if_pos hCond).symm⟩
  · obtain ⟨representation, hRepresentation, rfl⟩ := map_eq_ok.1 hPlacement
    exact ⟨representation, hRepresentation, (if_neg hCond).symm⟩

/-! ## Steps -/

theorem copy_eq_ok {copy : Copy} (h : naming.copy owner member = .ok copy) :
    ((member.typeOverride? ≠ none ∨ naming.graph.nested? member = none) ∧
      copy = member.primitiveCopy) ∨
    ∃ nested function, member.typeOverride? = none ∧ naming.graph.nested? member = some nested ∧
      nested.isUnion = false ∧
      ((member.arrayLength? = none ∧ copy = .record nested.name function nested.varLen) ∨
        ∃ length, member.arrayLength? = some length ∧ nested.varLen = false ∧
          copy = .recordArray nested.name function length) := by
  unfold Naming.copy at h
  dsimp only at h
  split at h
  · rename_i hOverride
    exact .inl ⟨.inl (Option.isSome_iff_ne_none.1 hOverride), (Except.ok.inj h).symm⟩
  · rename_i hOverride
    split at h
    · rename_i hNested
      exact .inl ⟨.inr hNested, (Except.ok.inj h).symm⟩
    · rename_i nested hNested
      split at h
      · cases h
      · rename_i hStruct
        obtain ⟨function, _, h⟩ := bind_eq_ok.1 h
        refine .inr ⟨nested, function, by simpa using hOverride, hNested,
          by simpa using hStruct, ?_⟩
        split at h
        · rename_i hPlain
          exact .inl ⟨hPlain, (pure_eq_ok.1 h).symm⟩
        · rename_i length hLength
          split at h
          · cases h
          · rename_i hFixed
            exact .inr ⟨length, hLength, by simpa using hFixed, (pure_eq_ok.1 h).symm⟩

theorem varLenStep_eq_ok {lengthField : String} {step : Step}
    (h : naming.varLenStep owner member lengthField = .ok step) :
    ∃ element copy, naming.representation member = .ok element ∧
      step = .varLen member.name lengthField element copy ∧
      ((naming.graph.nested? member = none ∧ copy = .scalar) ∨
        ∃ nested function, naming.graph.nested? member = some nested ∧ nested.isUnion = false ∧
          nested.varLen = false ∧ copy = .record nested.name function false) := by
  unfold Naming.varLenStep at h
  dsimp only at h
  split at h
  · rename_i hNested
    obtain ⟨copy, hCopy, h⟩ := bind_eq_ok.1 h
    obtain ⟨element, hElement, h⟩ := bind_eq_ok.1 h
    exact ⟨element, copy, hElement, (pure_eq_ok.1 h).symm,
      .inl ⟨hNested, (pure_eq_ok.1 hCopy).symm⟩⟩
  · rename_i nested hNested
    split at h
    · cases h
    · rename_i hStruct
      split at h
      · cases h
      · rename_i hFixed
        obtain ⟨function, _, h⟩ := bind_eq_ok.1 h
        obtain ⟨copy, hCopy, h⟩ := bind_eq_ok.1 h
        obtain ⟨element, hElement, h⟩ := bind_eq_ok.1 h
        exact ⟨element, copy, hElement, (pure_eq_ok.1 h).symm, .inr ⟨nested, function, hNested,
          by simpa using hStruct, by simpa using hFixed, (pure_eq_ok.1 hCopy).symm⟩⟩

theorem unionArm_eq_ok {union : Outline} {value : Literal} {target : String} {arm : UnionArm}
    (h : naming.unionArm union value target = .ok arm) :
    ∃ variant copy, union.member? target = some variant ∧ naming.copy union variant = .ok copy ∧
      arm = ⟨value, target, copy⟩ := by
  unfold Naming.unionArm at h
  split at h
  · cases h
  · rename_i variant hVariant
    obtain ⟨copy, hCopy, h⟩ := bind_eq_ok.1 h
    exact ⟨variant, copy, hVariant, hCopy, (pure_eq_ok.1 h).symm⟩

theorem unionStep_eq_ok {discriminator : String} {mapping : List (Literal × String)} {step : Step}
    (h : naming.unionStep owner member discriminator mapping = .ok step) :
    ∃ union record arms, naming.graph.nested? member = some union ∧ union.isUnion = true ∧
      member.arrayLength? = none ∧ naming.recordRef union.name = .ok record ∧
      List.Forall₂ (fun pair arm => naming.unionArm union.toOutline pair.1 pair.2 = .ok arm)
        mapping arms ∧
      step = .union member.name record discriminator arms := by
  unfold Naming.unionStep at h
  split at h
  · cases h
  · rename_i union hUnion
    obtain ⟨hNested, hKind⟩ := Option.filter_eq_some_iff.1 hUnion
    split at h
    · cases h
    · rename_i hPlain
      obtain ⟨arms, hArms, h⟩ := bind_eq_ok.1 h
      obtain ⟨record, hRecord, h⟩ := bind_eq_ok.1 h
      exact ⟨union, record, arms, hNested, hKind, by simpa using hPlain, hRecord,
        mapM_eq_ok.1 hArms, (pure_eq_ok.1 h).symm⟩

/-- The step is what the decisive directive asks for. -/
theorem stepOf_eq (directives : List Directive) :
    naming.stepOf owner member directives =
      match directives.find? member.decides with
      | some (.fixedValue value) => .ok (fixedStep member value)
      | some (.varLenArray lengthField) => naming.varLenStep owner member lengthField
      | some (.unionVariant discriminator mapping) =>
        naming.unionStep owner member discriminator mapping
      | _ => (naming.copy owner member).map (.assign member.name) := by
  induction directives with
  | nil => rfl
  | cons directive rest ih =>
      rw [List.find?_cons]
      cases directive with
      | fixedValue value => rfl
      | varLenArray lengthField =>
          rw [Naming.stepOf]
          cases hOverride : member.typeOverride? <;> simp [Member.decides, hOverride, ih]
      | unionVariant discriminator mapping =>
          rw [Naming.stepOf]
          cases hOverride : member.typeOverride? <;> simp [Member.decides, hOverride, ih]
      | renameType name => exact ih
      | overrideType spec => exact ih
      | enumeration typeName => exact ih

theorem step_eq_ok {step : Step} (h : naming.step owner member = .ok step) :
    (member.decisive? = none ∧
      ∃ copy, naming.copy owner member = .ok copy ∧ step = .assign member.name copy) ∨
    (∃ value, member.decisive? = some (.fixedValue value) ∧ step = fixedStep member value) ∨
    (∃ lengthField, member.decisive? = some (.varLenArray lengthField) ∧
      member.typeOverride? = none ∧ naming.varLenStep owner member lengthField = .ok step) ∨
    (∃ discriminator mapping, member.decisive? = some (.unionVariant discriminator mapping) ∧
      member.typeOverride? = none ∧
      naming.unionStep owner member discriminator mapping = .ok step) := by
  have hStep := h
  unfold Naming.step at hStep
  rw [stepOf_eq] at hStep
  cases hDecisive : member.decisive? with
  | none =>
      rw [Member.decisive?] at hDecisive
      rw [hDecisive] at hStep
      obtain ⟨copy, hCopy, rfl⟩ := map_eq_ok.1 hStep
      exact .inl ⟨rfl, copy, hCopy, rfl⟩
  | some directive =>
      have hDecides := List.find?_some hDecisive
      rw [Member.decisive?] at hDecisive
      rw [hDecisive] at hStep
      cases directive with
      | fixedValue value => exact .inr (.inl ⟨value, rfl, (Except.ok.inj hStep).symm⟩)
      | varLenArray lengthField =>
          exact .inr (.inr (.inl ⟨lengthField, rfl,
            by simpa [Member.decides] using hDecides, hStep⟩))
      | unionVariant discriminator mapping =>
          exact .inr (.inr (.inr ⟨discriminator, mapping, rfl,
            by simpa [Member.decides] using hDecides, hStep⟩))
      | renameType name => cases hDecides
      | overrideType spec => cases hDecides
      | enumeration typeName => cases hDecides

theorem step_of_fixedValue {step : Step} {value : Literal}
    (hDecisive : member.decisive? = some (.fixedValue value))
    (h : naming.step owner member = .ok step) : step = fixedStep member value := by
  rw [Member.decisive?] at hDecisive
  rw [Naming.step, stepOf_eq, hDecisive] at h
  exact (Except.ok.inj h).symm

theorem fixedStep_cases (member : Member) (value : Literal) :
    fixedStep member value = .fixedFill member.name value ∨
      fixedStep member value = .fixedScalar member.name value := by
  unfold fixedStep
  split
  · exact .inl rfl
  · exact .inr rfl

/-- A step for a variable-length array copies elements of fixed size. -/
theorem varLen_of_step {field lengthField : String} {element : Representation} {copy : Copy}
    (h : naming.step owner member = .ok (.varLen field lengthField element copy)) :
    copy = .scalar ∨ ∃ source function, copy = .record source function false := by
  rcases step_eq_ok h with
    ⟨_, _, _, hEq⟩ | ⟨value, _, hEq⟩ | ⟨_, _, _, hVarLen⟩ | ⟨_, _, _, _, hUnion⟩
  · cases hEq
  · rcases fixedStep_cases member value with hFixed | hFixed <;> cases hEq.trans hFixed
  · obtain ⟨_, _, _, hEq, ⟨_, rfl⟩ | ⟨_, _, _, _, _, rfl⟩⟩ := varLenStep_eq_ok hVarLen <;> cases hEq
    · exact .inl rfl
    · exact .inr ⟨_, _, rfl⟩
  · obtain ⟨_, _, _, _, _, _, _, _, hEq⟩ := unionStep_eq_ok hUnion
    cases hEq

/-- A step for a union is made from a directive on union members. -/
theorem union_of_step {field discriminator : String} {record : RecordRef} {arms : List UnionArm}
    (h : naming.step owner member = .ok (.union field record discriminator arms)) :
    ∃ named mapping, member.typeOverride? = none ∧
      naming.unionStep owner member named mapping =
        .ok (.union field record discriminator arms) := by
  rcases step_eq_ok h with
    ⟨_, _, _, hEq⟩ | ⟨value, _, hEq⟩ | ⟨_, _, _, hVarLen⟩ | ⟨named, mapping, _, hOverride, hUnion⟩
  · cases hEq
  · rcases fixedStep_cases member value with hFixed | hFixed <;> cases hEq.trans hFixed
  · obtain ⟨_, _, _, hEq, _⟩ := varLenStep_eq_ok hVarLen
    cases hEq
  · exact ⟨named, mapping, hOverride, hUnion⟩

/-! ## Terms -/

theorem sizeTerm?_eq_ok {part : Option SizeTerm}
    (h : naming.sizeTerm? owner member = .ok part) :
    ((member.typeOverride? ≠ none ∨
        (member.lengthField? = none ∧
          (naming.graph.nested? member).filter TypeEntry.varLen = none)) ∧
      part = none) ∨
    (∃ lengthField element, member.typeOverride? = none ∧ member.lengthField? = some lengthField ∧
      (naming.graph.nested? member).filter TypeEntry.varLen = none ∧
      naming.representation member = .ok element ∧
      part = some (.varLen member.name lengthField element)) ∨
    (∃ nested target function, member.typeOverride? = none ∧ member.lengthField? = none ∧
      naming.graph.nested? member = some nested ∧ nested.varLen = true ∧ nested.isUnion = false ∧
      member.arrayLength? = none ∧
      part = some (.nested member.name nested.name target function)) := by
  unfold Naming.sizeTerm? at h
  dsimp only at h
  split at h
  · rename_i hOverride
    exact .inl ⟨.inl (Option.isSome_iff_ne_none.1 hOverride), (Except.ok.inj h).symm⟩
  · rename_i hOverride
    have hNone : member.typeOverride? = none := by simpa using hOverride
    split at h
    · cases h
    · rename_i lengthField hLength hNested
      obtain ⟨element, hElement, h⟩ := bind_eq_ok.1 h
      exact .inr (.inl ⟨lengthField, element, hNone, hLength, hNested, hElement,
        (pure_eq_ok.1 h).symm⟩)
    · rename_i nested hLength hNested
      obtain ⟨hNested, hVarLen⟩ := Option.filter_eq_some_iff.1 hNested
      split at h
      · cases h
      · rename_i hPlain
        rw [Bool.or_eq_true, not_or] at hPlain
        obtain ⟨target, _, h⟩ := bind_eq_ok.1 h
        obtain ⟨function, _, h⟩ := bind_eq_ok.1 h
        exact .inr (.inr ⟨nested, target, function, hNone, hLength, hNested, hVarLen,
          by simpa using hPlain.1, by simpa using hPlain.2, (pure_eq_ok.1 h).symm⟩)
    · rename_i hLength hNested
      exact .inl ⟨.inr ⟨hLength, hNested⟩, (Except.ok.inj h).symm⟩

end Naming

end WireSchema
