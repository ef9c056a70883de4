import WireSchema.Proofs.EncodeSafety

/-!
# Well-shaped source values

A source value has to be of the kind that the program takes it for: numbers in the places of
primitive types, records in those of structures, counts that are not negative, and
discriminators that select a member.  `Encoder.WellShaped` says so of everything that the
encode functions of a root can read, and of nothing else.

What can be read is followed from record to record.  A step *copies* values of the record it
encodes, one for each element of a variable-length array; a copy of a fixed array takes the
*parts* of its value one by one; and a part that is encoded by a function of its own is a
record that is *opened*.  The elements of an array that no payload can hold are never read.

## Main definitions

* `Encoder.copied`, `Copy.parts`, `Encoder.Opens`: what the functions of a root can read.
* `Encoder.WellShaped`: that has the right kind.
* `Encoder.shapedWithin`: a check of it.

## Main results

* `Encoder.wellShaped_of_shapedWithin`: what passes the check is well-shaped.
-/

namespace WireSchema

/-- Whether the value is a number. -/
def Value.isNumber : Value → Bool
  | int _ => true
  | float _ => true
  | _ => false

/-- The number of elements that a copy takes from its value, if it is that of an array. -/
def Copy.length? : Copy → Option Nat
  | .array length => some length
  | .recordArray _ _ length => some length
  | _ => none

/-- The values that are written on their own when `given` is copied: the elements of an array,
present or not, or the value itself. -/
def Copy.parts (copy : Copy) (given : Option Value) : List (Option Value) :=
  match copy.length? with
  | none => [given]
  | some length => (List.range length).map fun i => (itemsOf given)[i]?

theorem Copy.getElem?_mem_parts {copy : Copy} {length i : Nat} (h : copy.length? = some length)
    (hi : i < length) (given : Option Value) : (itemsOf given)[i]? ∈ copy.parts given := by
  rw [Copy.parts, h]
  exact List.mem_map_of_mem (List.mem_range.2 hi)

/-- The constants in a step. -/
def Step.literals : Step → List Literal
  | .fixedScalar _ value => [value]
  | .fixedFill _ value => [value]
  | .union _ _ _ arms => arms.map UnionArm.value
  | _ => []

namespace Encoder

/-- What a step copies of the record `input`.  An array is copied only if some payload can hold
it. -/
def copied (encoder : Encoder) (source : String) (input : Option Value) :
    Step → List (Copy × Option Value)
  | .assign field copy => [(copy, fieldOf input field)]
  | .varLen field lengthField _ copy =>
    match encoder.fieldLayout source field, lengthOf input lengthField with
    | .ok layout, .ok count =>
      if 0 < count * layout.elementSize ∧ count * layout.elementSize ≤ payloadLimit then
        (List.range count).map fun i => (copy, (itemsOf (fieldOf input field))[i]?)
      else []
    | _, _ => []
  | .union field _ discriminator arms =>
    match integerOf (fieldOf input discriminator) discriminator with
    | .ok selector =>
      match encoder.selectArm field selector arms with
      | .ok arm => [(arm.copy, fieldOf (fieldOf input field) arm.member)]
      | .error _ => []
    | .error _ => []
  | _ => []

/-- Encoding `value` as `root` can encode `input` as `source`. -/
inductive Opens (encoder : Encoder) (root : String) (value : Option Value) :
    String → Option Value → Prop
  | root : Opens encoder root value root value
  | part {owner source : String} {input given part : Option Value} {function : EncodeFunction}
      {step : Step} {copy : Copy} :
      Opens encoder root value owner input → encoder.encodeFunction owner = .ok function →
      step ∈ function.steps → (copy, given) ∈ encoder.copied owner input step →
      copy.callee? = some source → part ∈ copy.parts given → Opens encoder root value source part

/-- What a step reads of the record `input` is of the right kind. -/
structure ShapedFor (encoder : Encoder) (source : String) (input : Option Value)
    (step : Step) : Prop where
  numbers : ∀ copy given, (copy, given) ∈ encoder.copied source input step →
    copy.callee? = none → ∀ part ∈ copy.parts given, part.all Value.isNumber = true
  count : ∀ field lengthField element copy, step = .varLen field lengthField element copy →
    ∀ value, fieldOf input lengthField = some value →
      ∃ n, value.toInt? = some n ∧ 0 ≤ n.toInt
  discriminator : ∀ field record discriminator arms,
    step = .union field record discriminator arms →
    ∃ selector, ((fieldOf input discriminator = none ∧ selector = 0) ∨
        ∃ value, fieldOf input discriminator = some value ∧ value.toInt? = some selector) ∧
      ∃ arm ∈ arms, encoder.valueOf arm.value = .ok selector

/-- Whatever the functions of `root` read of a value is of the right kind. -/
structure WellShaped (encoder : Encoder) (root : String) (value : Option Value) : Prop where
  records : ∀ source input, encoder.Opens root value source input →
    input.all Value.isRecord = true
  steps : ∀ source input, encoder.Opens root value source input →
    ∀ function, encoder.encodeFunction source = .ok function →
      ∀ step ∈ function.steps, encoder.ShapedFor source input step

/-- Every symbol in the encode functions has a value. -/
def Defined (encoder : Encoder) : Prop :=
  ∀ function ∈ encoder.program.encodeFunctions, ∀ step ∈ function.steps,
    ∀ literal ∈ step.literals, ∃ n, encoder.valueOf literal = .ok n

variable {encoder : Encoder} {primitives : Primitives}

theorem Opens.trans {root source inner : String} {value input found : Option Value}
    (h : encoder.Opens root value source input) (hInner : encoder.Opens source input inner found) :
    encoder.Opens root value inner found := by
  induction hInner with
  | root => exact h
  | part _ hFunction hStep hCopied hCallee hPart ih =>
      exact .part ih hFunction hStep hCopied hCallee hPart

theorem copy_mem_of_copied {source : String} {input given : Option Value} {step : Step}
    {copy : Copy} (h : (copy, given) ∈ encoder.copied source input step) :
    copy ∈ step.copies := by
  unfold copied at h
  split at h
  · obtain rfl := congrArg Prod.fst (List.mem_singleton.1 h)
    exact List.mem_cons_self
  · split at h
    · split at h
      · obtain ⟨_, _, hEq⟩ := List.mem_map.1 h
        obtain rfl := congrArg Prod.fst hEq
        exact List.mem_cons_self
      · cases h
    · cases h
  · split at h
    · split at h
      · rename_i hArm
        obtain rfl := congrArg Prod.fst (List.mem_singleton.1 h)
        exact List.mem_map_of_mem (mem_of_selectArm hArm)
      · cases h
    · cases h
  · cases h

theorem element_mem_copied {source field lengthField : String} {input : Option Value}
    (element : Representation) (copy : Copy) {layout : FieldLayout} {count i : Nat}
    (hLayout : encoder.fieldLayout source field = .ok layout)
    (hCount : lengthOf input lengthField = .ok count) (hPositive : 0 < count * layout.elementSize)
    (hBound : count * layout.elementSize ≤ payloadLimit) (hi : i < count) :
    (copy, (itemsOf (fieldOf input field))[i]?) ∈
      encoder.copied source input (.varLen field lengthField element copy) := by
  simp only [copied, hLayout, hCount]
  rw [if_pos ⟨hPositive, hBound⟩]
  exact List.mem_map_of_mem (List.mem_range.2 hi)

theorem arm_mem_copied (source : String) {field discriminator : String} {input : Option Value}
    (record : RecordRef) {arms : List UnionArm} {selector : Int64} {arm : UnionArm}
    (hSelector : integerOf (fieldOf input discriminator) discriminator = .ok selector)
    (hArm : encoder.selectArm field selector arms = .ok arm) :
    (arm.copy, fieldOf (fieldOf input field) arm.member) ∈
      encoder.copied source input (.union field record discriminator arms) := by
  simp only [copied, hSelector, hArm]
  exact List.mem_cons_self

/-- What a well-shaped value is opened to is well-shaped. -/
theorem WellShaped.of_opens {root source : String} {value input : Option Value}
    (h : encoder.WellShaped root value) (hOpens : encoder.Opens root value source input) :
    encoder.WellShaped source input where
  records _ _ hInner := h.records _ _ (hOpens.trans hInner)
  steps _ _ hInner := h.steps _ _ (hOpens.trans hInner)

/-! ## Checking shapes -/

/-- Whether the numbers that a step goes by are there: a count that is not negative, or the
value of an arm. -/
def goesBy (encoder : Encoder) (input : Option Value) : Step → Bool
  | .varLen _ lengthField _ _ =>
    (fieldOf input lengthField).all fun value => value.toInt?.any fun n => decide (0 ≤ n.toInt)
  | .union _ _ discriminator arms =>
    ((fieldOf input discriminator).elim (some 0) Value.toInt?).any fun selector =>
      arms.any fun arm => (encoder.valueOf arm.value).toOption == some selector
  | _ => true

/-- Whether everything that encoding `input` as `source` reads is of the right kind, with fewer
than `fuel` records one in another. -/
def shapedWithin (encoder : Encoder) : (fuel : Nat) → String → Option Value → Bool
  | 0, _, _ => false
  | fuel + 1, source, input =>
    input.all Value.isRecord &&
      match encoder.encodeFunction source with
      | .error _ => true
      | .ok function => function.steps.all fun step =>
        encoder.goesBy input step && (encoder.copied source input step).all fun (copy, given) =>
          (copy.parts given).all fun part =>
            match copy.callee? with
            | none => part.all Value.isNumber
            | some callee => encoder.shapedWithin fuel callee part

theorem shapedWithin_succ {fuel : Nat} {source : String} {input : Option Value}
    (h : encoder.shapedWithin (fuel + 1) source input = true) :
    input.all Value.isRecord = true ∧
      ∀ function, encoder.encodeFunction source = .ok function → ∀ step ∈ function.steps,
        encoder.goesBy input step = true ∧
          ∀ copy given, (copy, given) ∈ encoder.copied source input step →
            ∀ part ∈ copy.parts given,
              match copy.callee? with
              | none => part.all Value.isNumber = true
              | some callee => encoder.shapedWithin fuel callee part = true := by
  rw [shapedWithin, Bool.and_eq_true] at h
  refine ⟨h.1, fun function hFunction step hStep => ?_⟩
  rw [hFunction] at h
  have hOne := List.all_eq_true.1 h.2 step hStep
  rw [Bool.and_eq_true] at hOne
  refine ⟨hOne.1, fun copy given hCopied part hPart => ?_⟩
  have hLast := List.all_eq_true.1 (List.all_eq_true.1 hOne.2 _ hCopied) part hPart
  cases hCallee : copy.callee? with
  | none => simpa [hCallee] using hLast
  | some callee => simpa [hCallee] using hLast

theorem shapedFor_of_goesBy {source : String} {input : Option Value} {step : Step}
    (h : encoder.goesBy input step = true)
    (hNumbers : ∀ copy given, (copy, given) ∈ encoder.copied source input step →
      copy.callee? = none → ∀ part ∈ copy.parts given, part.all Value.isNumber = true) :
    encoder.ShapedFor source input step where
  numbers := hNumbers
  count := by
    rintro field lengthField element copy rfl value hValue
    simp only [goesBy, hValue, Option.all_some, Option.any_eq_true, decide_eq_true_eq] at h
    exact h
  discriminator := by
    rintro field record discriminator arms rfl
    simp only [goesBy, Option.any_eq_true, List.any_eq_true, beq_iff_eq] at h
    obtain ⟨selector, hSelector, arm, hArm, hValue⟩ := h
    refine ⟨selector, ?_, arm, hArm, eq_ok_of_toOption hValue⟩
    cases hField : fieldOf input discriminator with
    | none =>
        rw [hField] at hSelector
        exact .inl ⟨rfl, (Option.some.inj hSelector).symm⟩
    | some value =>
        rw [hField] at hSelector
        exact .inr ⟨value, rfl, hSelector⟩

/-- What a value that passes the check is opened to passes it too. -/
theorem shapedWithin_of_opens {root source : String} {value input : Option Value}
    (hOpens : encoder.Opens root value source input) {fuel : Nat}
    (h : encoder.shapedWithin fuel root value = true) :
    ∃ fuel, encoder.shapedWithin (fuel + 1) source input = true := by
  induction hOpens with
  | root =>
      cases fuel with
      | zero => cases h
      | succ fuel => exact ⟨fuel, h⟩
  | part _ hFunction hStep hCopied hCallee hPart ih =>
      obtain ⟨fuel, hOwner⟩ := ih
      have hInner := ((shapedWithin_succ hOwner).2 _ hFunction _ hStep).2 _ _ hCopied _ hPart
      rw [hCallee] at hInner
      cases fuel with
      | zero => cases hInner
      | succ fuel => exact ⟨fuel, hInner⟩

/-- A value that passes the check is well-shaped. -/
theorem wellShaped_of_shapedWithin {root : String} {value : Option Value} {fuel : Nat}
    (h : encoder.shapedWithin fuel root value = true) : encoder.WellShaped root value where
  records source input hOpens := by
    obtain ⟨fuel, hShaped⟩ := shapedWithin_of_opens hOpens h
    exact (shapedWithin_succ hShaped).1
  steps source input hOpens function hFunction step hStep := by
    obtain ⟨fuel, hShaped⟩ := shapedWithin_of_opens hOpens h
    obtain ⟨hGoes, hCopies⟩ := (shapedWithin_succ hShaped).2 function hFunction step hStep
    refine shapedFor_of_goesBy hGoes fun copy given hCopied hCallee part hPart => ?_
    have hOne := hCopies copy given hCopied part hPart
    rw [hCallee] at hOne
    exact hOne

end Encoder

end WireSchema
