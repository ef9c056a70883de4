import WireSchema.Proofs.PackedSizes

/-!
# The images of records

The reference looks for the function of a structure among those before the one that
calls it, so that it is defined by recursion on the list of functions.  In a compiled
program all functions that one calls are before it, and the place in the list makes no
difference.

## Main results

* `Reference.step_congr`: a step depends on the images of what it calls.
* `Compiled.record_eq`: the image of a record is that of its steps.
-/

namespace WireSchema

namespace Reference

variable {ref : Reference} {call call' : String → Option Value → Piece}

theorem copy_congr {copy : Copy}
    (h : ∀ source, copy.callee? = some source → call source = call' source)
    (representation : Representation) :
    ref.copy call representation copy = ref.copy call' representation copy := by
  funext value
  cases copy with
  | scalar => rfl
  | array length => rfl
  | record source function varLen => exact congrFun (h source rfl) value
  | recordArray source function length =>
      exact congrArg (fun piece => Piece.repeated length piece (itemsOf value)) (h source rfl)

/-- A step depends on the images of what its copies call, and on no others. -/
theorem step_congr {step : Step} (h : ∀ copy ∈ step.copies, ∀ source,
      copy.callee? = some source → call source = call' source) (source : String)
    (input : Option Value) :
    ref.step call source input step = ref.step call' source input step := by
  funext next
  unfold Reference.step
  refine Option.bind_congr fun member _ => ?_
  cases step with
  | fixedScalar field value => rfl
  | fixedFill field value => rfl
  | assign field copy =>
      dsimp only
      rw [copy_congr (h copy List.mem_cons_self)]
  | varLen field lengthField element copy =>
      dsimp only
      rw [copy_congr (h copy List.mem_cons_self)]
  | union field record discriminator arms =>
      refine Option.bind_congr fun selector _ => Option.bind_congr fun arm hArm => ?_
      refine Option.bind_congr fun variant _ => ?_
      have hMem := List.mem_of_find?_eq_some hArm
      rw [copy_congr (h arm.copy (List.mem_map_of_mem hMem))]

/-- Functions of other structures make no difference. -/
theorem recordAmong_append {front functions : List EncodeFunction} {source : String}
    (h : source ∉ front.map EncodeFunction.source) :
    ref.recordAmong (front ++ functions) source = ref.recordAmong functions source := by
  induction front with
  | nil => rfl
  | cons function front ih =>
      rw [List.map_cons, List.mem_cons, not_or] at h
      funext input
      rw [List.cons_append, recordAmong, if_neg h.1, ih h.2]

end Reference

namespace Compiled

variable {declarations : Declarations} {request : Request} {naming : Naming}

/-- The functions that one calls are before it. -/
theorem callees_earlier {program : Program} (h : Compiled declarations request naming program)
    {before after : List EncodeFunction} {function : EncodeFunction}
    (hSplit : program.encodeFunctions = before ++ function :: after) {step : Step}
    (hStep : step ∈ function.steps) {copy : Copy} (hCopy : copy ∈ step.copies) {source : String}
    (hSource : copy.callee? = some source) : source ∈ before.map EncodeFunction.source := by
  obtain ⟨lead, entry, tail, hOrder, _, hMade, hEarlier⟩ := h.exists_order hSplit
  obtain ⟨_, _, hSteps⟩ := Naming.encodeFunction_eq_ok hMade
  obtain ⟨member, hMember, hLowered⟩ := exists_left_of_mem hSteps hStep
  obtain ⟨callee, hLead, rfl, hStruct, _⟩ :=
    h.callee_before hOrder hMember hLowered hCopy hSource
  obtain ⟨called, hCalled, hCalledMade⟩ := hEarlier callee hLead hStruct
  rw [← (Naming.encodeFunction_eq_ok hCalledMade).1]
  exact List.mem_map_of_mem hCalled

/-- **The image of a record** is that of its steps, one after another. -/
theorem record_eq {ref : Reference} (h : Compiled declarations request naming ref.program)
    {function : EncodeFunction} (hFunction : function ∈ ref.program.encodeFunctions)
    {input : Option Value} (hRecord : input.all Value.isRecord = true) :
    ref.record function.source input =
      .concat (function.steps.map (ref.step ref.record function.source input)) := by
  obtain ⟨before, after, hSplit⟩ := List.append_of_mem hFunction
  have hNodup := h.nodup_encode_sources
  rw [hSplit, List.map_append, List.nodup_append] at hNodup
  obtain ⟨_, hNodupTail, hApart⟩ := hNodup
  rw [List.map_cons, List.nodup_cons] at hNodupTail
  have hEarlier : ∀ source ∈ before.map EncodeFunction.source,
      ref.recordAmong before.reverse source = ref.record source := by
    intro source hSource
    unfold Reference.record
    rw [hSplit, List.reverse_append, Reference.recordAmong_append]
    rw [List.map_reverse, List.mem_reverse]
    exact fun hOther => hApart source hSource source hOther rfl
  have hBody : ref.record function.source input =
      .concat (function.steps.map
        (ref.step (ref.recordAmong before.reverse) function.source input)) := by
    unfold Reference.record
    rw [hSplit, List.reverse_append, List.reverse_cons, List.append_assoc,
      Reference.recordAmong_append, List.singleton_append, Reference.recordAmong, if_pos rfl,
      if_pos hRecord]
    rw [List.map_reverse, List.mem_reverse]
    exact hNodupTail.1
  rw [hBody]
  refine congrArg Piece.concat (List.map_congr_left fun step hStep => ?_)
  refine Reference.step_congr (fun copy hCopy source hSource => ?_) _ _
  exact hEarlier source (h.callees_earlier hSplit hStep hCopy hSource)

end Compiled

end WireSchema
