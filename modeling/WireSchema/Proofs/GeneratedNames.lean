import WireSchema.Proofs.ReadyEncoder

/-!
# The names in a program

A program says each generated name several times: where a type or a function is defined,
and wherever another one refers to it.  No pass looks up what another pass has written;
each asks `Naming` for the name again.  The lemmas here say, for each place, what was
asked, so that a definition and a reference to the same source type have the same name.

## Main results

* `Naming.function_of_encodeFunction`, `Naming.function_of_step`: encode functions, and
  calls of them.
* `Naming.names_of_sizeFunction`, `Naming.names_of_sizeTerm?`: size functions, and calls
  of them.
* `Naming.names_of_entryPoint`: the functions that an entry point calls.
-/

namespace WireSchema

/-- The structure that a copy encodes by its own function, and the name of the function. -/
def Copy.call? : Copy → Option (String × String)
  | .record source function _ => some (source, function)
  | .recordArray source function _ => some (source, function)
  | _ => none

theorem Text.eq_append_of_afterPrefix? {lead text rest : String}
    (h : Text.afterPrefix? lead text = some rest) : text = lead ++ rest := by
  obtain ⟨tail, hDrop, rfl⟩ := Option.map_eq_some_iff.1 h
  rw [← String.toList_inj, Text.dropLead?_eq_some.1 hDrop, String.toList_append,
    String.toList_ofList]

namespace Naming

variable {naming : Naming} {owner : Outline} {member : Member} {entry : TypeEntry}
  {source function : String}

/-! ## Names and core names -/

theorem eq_append_of_coreName {core : String} (h : naming.coreName source = .ok core) :
    source = naming.settings.apiPrefix ++ (naming.service ++ core) := by
  unfold Naming.coreName at h
  split at h
  · rename_i found hFound
    cases h
    obtain ⟨rest, hRest, hCore⟩ := Option.bind_eq_some_iff.1 hFound
    rw [Text.eq_append_of_afterPrefix? hRest, Text.eq_append_of_afterPrefix? hCore]
  · cases h

/-- What a function is called, for a type with its core name. -/
theorem functionName_eq_ok {role : FunctionRole} {name : String}
    (h : naming.functionName role source = .ok name) :
    ∃ core, source = naming.settings.apiPrefix ++ (naming.service ++ core) ∧
      name = naming.settings.functionPrefix ++ naming.service ++ (role.infixText ++ core) ++
        naming.settings.functionSuffix := by
  obtain ⟨core, hCore, hName⟩ := bind_eq_ok.1 h
  refine ⟨core, eq_append_of_coreName hCore, ?_⟩
  rw [← pure_eq_ok.1 hName]
  simp only [String.append_assoc]

/-- The functions of one role have different names for different types. -/
theorem functionName_inj {role : FunctionRole} {other name : String}
    (h : naming.functionName role source = .ok name)
    (hOther : naming.functionName role other = .ok name) : source = other := by
  obtain ⟨core, hSource, hName⟩ := functionName_eq_ok h
  obtain ⟨otherCore, hOtherSource, hSame⟩ := functionName_eq_ok hOther
  have hCores : core = otherCore := by
    simpa [String.append_left_inj, String.append_right_inj] using hName.symm.trans hSame
  rw [hSource, hOtherSource, hCores]

/-! ## Types -/

theorem target_of_recordRef {ref : RecordRef} (h : naming.recordRef source = .ok ref) :
    naming.typeName source = .ok ref.target := by
  obtain ⟨entry, _, h⟩ := bind_eq_ok.1 h
  obtain ⟨target, hTarget, h⟩ := bind_eq_ok.1 h
  obtain rfl := pure_eq_ok.1 h
  exact hTarget

theorem target_of_packedType {type : PackedType} (h : naming.packedType entry = .ok type) :
    naming.typeName entry.name = .ok type.target := by
  obtain ⟨target, hTarget, h⟩ := bind_eq_ok.1 h
  obtain ⟨members, _, h⟩ := bind_eq_ok.1 h
  obtain rfl := pure_eq_ok.1 h
  exact hTarget

/-! ## Encode functions -/

theorem function_of_encodeFunction {made : EncodeFunction}
    (h : naming.encodeFunction entry = .ok made) :
    naming.functionName .convert entry.name = .ok made.function := by
  obtain ⟨target, _, h⟩ := bind_eq_ok.1 h
  obtain ⟨name, hName, h⟩ := bind_eq_ok.1 h
  obtain ⟨steps, _, h⟩ := bind_eq_ok.1 h
  obtain rfl := pure_eq_ok.1 h
  exact hName

theorem call?_primitiveCopy (member : Member) : member.primitiveCopy.call? = none := by
  unfold Member.primitiveCopy
  split <;> rfl

/-- A copied structure is encoded by the function of that structure. -/
theorem function_of_copy {copy : Copy} (h : naming.copy owner member = .ok copy)
    (hCall : copy.call? = some (source, function)) :
    naming.functionName .convert source = .ok function := by
  have hPrimitive : copy ≠ member.primitiveCopy := by
    intro hEq
    rw [hEq, call?_primitiveCopy] at hCall
    cases hCall
  unfold Naming.copy at h
  dsimp only at h
  split at h
  · exact absurd (Except.ok.inj h).symm hPrimitive
  · split at h
    · exact absurd (Except.ok.inj h).symm hPrimitive
    · split at h
      · cases h
      · obtain ⟨name, hName, h⟩ := bind_eq_ok.1 h
        split at h
        · rw [← pure_eq_ok.1 h] at hCall
          cases hCall
          exact hName
        · split at h
          · cases h
          · rw [← pure_eq_ok.1 h] at hCall
            cases hCall
            exact hName

theorem function_of_varLenStep {lengthField field count : String} {element : Representation}
    {copy : Copy}
    (h : naming.varLenStep owner member lengthField = .ok (.varLen field count element copy))
    (hCall : copy.call? = some (source, function)) :
    naming.functionName .convert source = .ok function := by
  unfold Naming.varLenStep at h
  dsimp only at h
  split at h
  · obtain ⟨made, hMade, h⟩ := bind_eq_ok.1 h
    obtain ⟨representation, _, h⟩ := bind_eq_ok.1 h
    cases pure_eq_ok.1 h
    cases pure_eq_ok.1 hMade
    cases hCall
  · split at h
    · cases h
    · split at h
      · cases h
      · obtain ⟨name, hName, h⟩ := bind_eq_ok.1 h
        obtain ⟨made, hMade, h⟩ := bind_eq_ok.1 h
        obtain ⟨representation, _, h⟩ := bind_eq_ok.1 h
        cases pure_eq_ok.1 h
        cases pure_eq_ok.1 hMade
        cases hCall
        exact hName

/-- **Calls of encode functions**: whatever copy of a step calls a function, it calls it by
the name made for the structure. -/
theorem function_of_step {step : Step} (h : naming.step owner member = .ok step) {copy : Copy}
    (hCopy : copy ∈ step.copies) (hCall : copy.call? = some (source, function)) :
    naming.functionName .convert source = .ok function := by
  rcases step_eq_ok h with
    ⟨_, made, hMade, rfl⟩ | ⟨value, _, rfl⟩ | ⟨_, _, _, hVarLen⟩ | ⟨_, _, _, _, hUnion⟩
  · rw [List.mem_singleton.1 hCopy] at hCall
    exact function_of_copy hMade hCall
  · rcases fixedStep_cases member value with hFixed | hFixed <;> simp [hFixed, Step.copies] at hCopy
  · obtain ⟨element, made, _, rfl, _⟩ := varLenStep_eq_ok hVarLen
    rw [List.mem_singleton.1 hCopy] at hCall
    exact function_of_varLenStep hVarLen hCall
  · obtain ⟨union, record, arms, _, _, _, _, hArms, rfl⟩ := unionStep_eq_ok hUnion
    obtain ⟨arm, hArm, rfl⟩ := List.mem_map.1 hCopy
    obtain ⟨pair, _, hMade⟩ := exists_left_of_mem hArms hArm
    obtain ⟨variant, made, _, hCopied, rfl⟩ := unionArm_eq_ok hMade
    exact function_of_copy hCopied hCall

/-! ## Size functions -/

theorem names_of_sizeFunction {terms : List SizeTerm} {made : SizeFunction}
    (h : naming.sizeFunction source terms = .ok made) :
    naming.typeName source = .ok made.target ∧
      naming.functionName .sizeOf source = .ok made.function := by
  obtain ⟨target, hTarget, h⟩ := bind_eq_ok.1 h
  obtain ⟨name, hName, h⟩ := bind_eq_ok.1 h
  obtain ⟨parameter, _, h⟩ := bind_eq_ok.1 h
  obtain rfl := pure_eq_ok.1 h
  exact ⟨hTarget, hName⟩

/-- **Calls of size functions**: a term calls the function of the nested structure by the
name made for it, and takes off the size of its type. -/
theorem names_of_sizeTerm? {field target : String}
    (h : naming.sizeTerm? owner member = .ok (some (.nested field source target function))) :
    naming.typeName source = .ok target ∧
      naming.functionName .sizeOf source = .ok function := by
  unfold Naming.sizeTerm? at h
  dsimp only at h
  split at h
  · cases Except.ok.inj h
  · split at h
    · cases h
    · obtain ⟨representation, _, h⟩ := bind_eq_ok.1 h
      cases pure_eq_ok.1 h
    · split at h
      · cases h
      · obtain ⟨made, hTarget, h⟩ := bind_eq_ok.1 h
        obtain ⟨name, hName, h⟩ := bind_eq_ok.1 h
        cases pure_eq_ok.1 h
        exact ⟨hTarget, hName⟩
    · cases Except.ok.inj h

/-! ## Entry points -/

theorem function_of_entryPoint {point : EntryPoint} (h : naming.entryPoint entry = .ok point) :
    naming.functionName .allocate entry.name = .ok point.function :=
  (entryPoint_cases h).2.1

/-- An entry point calls the encode function of its type.  For a variable-length type it asks
the size function how much to allocate; any other takes the size of the packed type. -/
theorem names_of_entryPoint {point : EntryPoint} (h : naming.entryPoint entry = .ok point) :
    naming.functionName .convert entry.name = .ok point.encoder ∧
      ((entry.varLen = true ∧ ∃ name, naming.functionName .sizeOf entry.name = .ok name ∧
          point.size = .dynamic name) ∨
        (entry.varLen = false ∧ point.size = .static)) :=
  (entryPoint_cases h).2.2

end Naming

end WireSchema
