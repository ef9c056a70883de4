import Mathlib.Logic.Relation
import WireSchema.Proofs.EncodeSafety

/-!
# What an encode run visits

Encoding a root runs encode functions for the records in its source value, each at a
place of the buffer.  `Visit` is one such run.  From a visit, its steps enter others:
nested structures, the elements of arrays, the selected member of a union, and the
elements that a descriptor in the buffer refers to.

## Main definitions

* `Encoder.Visits`: the visits that a root leads to, read off the program, the source
  value and the buffer that was written.
* `Encoder.Degrades`: a step has an array with something to store, and its descriptor is
  zero.
* `Encoder.Stores`: what there is to store in the array of a step is stored.
* `Encoder.Throughout`: a property of steps holds in all visits that one leads to.

## Main results

* `Encoder.throughout_iff`: such a property, one step at a time.
* `Encoder.throughout_of_fixed`: what is true of all steps without arrays holds throughout a
  function of fixed size.
-/

namespace WireSchema

/-- A run of an encode function: its source value, and where its packed type begins. -/
structure Visit where
  function : EncodeFunction
  input : Option Value
  base : Nat

/-- The number of two bytes at `pos`. -/
def uint16At? (buffer : Array UInt8) (pos : Nat) : Option Nat :=
  match buffer[pos]?, buffer[pos + 1]? with
  | some low, some high => some (low.toNat + 256 * high.toNat)
  | _, _ => none

/-- The offset and the length in the descriptor at `pos`. -/
def descriptorAt? (buffer : Array UInt8) (pos : Nat) : Option (Nat × Nat) :=
  match uint16At? buffer pos, uint16At? buffer (pos + 2) with
  | some offset, some length => some (offset, length)
  | _, _ => none

namespace Encoder

/-- Copying `value` to `pos` enters a visit. -/
inductive CopyEnters (encoder : Encoder) (elementSize : Nat) (value : Option Value) (pos : Nat) :
    Copy → Visit → Prop
  | record {source name : String} {varLen : Bool} {callee : EncodeFunction} :
      encoder.encodeFunction source = .ok callee →
      CopyEnters encoder elementSize value pos (.record source name varLen) ⟨callee, value, pos⟩
  | recordArray {source name : String} {length i : Nat} {callee : EncodeFunction} :
      encoder.encodeFunction source = .ok callee → i < length →
      CopyEnters encoder elementSize value pos (.recordArray source name length)
        ⟨callee, (itemsOf value)[i]?, pos + elementSize * i⟩

/-- A step of a visit enters another. -/
inductive StepEnters (encoder : Encoder) (buffer : Array UInt8) (visit : Visit) :
    Step → Visit → Prop
  | assign {field : String} {copy : Copy} {layout : FieldLayout} {next : Visit} :
      encoder.fieldLayout visit.function.source field = .ok layout →
      encoder.CopyEnters layout.elementSize (fieldOf visit.input field) (visit.base + layout.offset)
        copy next →
      StepEnters encoder buffer visit (.assign field copy) next
  | varLen {field lengthField : String} {element : Representation} {copy : Copy}
      {layout : FieldLayout} {count start length i : Nat} {next : Visit} :
      encoder.fieldLayout visit.function.source field = .ok layout →
      lengthOf visit.input lengthField = .ok count →
      descriptorAt? buffer (visit.base + layout.offset) = some (start, length) → 0 < length →
      i < count →
      encoder.CopyEnters layout.elementSize (itemsOf (fieldOf visit.input field))[i]?
        (start + layout.elementSize * i) copy next →
      StepEnters encoder buffer visit (.varLen field lengthField element copy) next
  | union {field discriminator : String} {record : RecordRef} {arms : List UnionArm}
      {layout variant : FieldLayout} {selector : Int64} {arm : UnionArm} {next : Visit} :
      encoder.fieldLayout visit.function.source field = .ok layout →
      integerOf (fieldOf visit.input discriminator) discriminator = .ok selector →
      encoder.selectArm field selector arms = .ok arm →
      encoder.fieldLayout record.source arm.member = .ok variant →
      encoder.CopyEnters variant.elementSize (fieldOf (fieldOf visit.input field) arm.member)
        (visit.base + layout.offset + variant.offset) arm.copy next →
      StepEnters encoder buffer visit (.union field record discriminator arms) next

/-- One of the steps of a visit enters another. -/
def Enters (encoder : Encoder) (buffer : Array UInt8) (visit next : Visit) : Prop :=
  ∃ step ∈ visit.function.steps, encoder.StepEnters buffer visit step next

/-- The visits that a visit leads to, itself included. -/
abbrev Visits (encoder : Encoder) (buffer : Array UInt8) : Visit → Visit → Prop :=
  Relation.ReflTransGen (encoder.Enters buffer)

/-- The array of a step has bytes to store, but its descriptor is zero. -/
def Degrades (encoder : Encoder) (buffer : Array UInt8) (visit : Visit) : Step → Prop
  | .varLen field lengthField _ _ =>
    ∃ layout count, encoder.fieldLayout visit.function.source field = .ok layout ∧
      lengthOf visit.input lengthField = .ok count ∧ 0 < count * layout.elementSize ∧
      descriptorAt? buffer (visit.base + layout.offset) = some (0, 0)
  | _ => False

/-- If the array of a step has bytes to store, its descriptor says how many they are and where
in the buffer they are. -/
def Stores (encoder : Encoder) (buffer : Array UInt8) (visit : Visit) : Step → Prop
  | .varLen field lengthField _ _ =>
    ∀ layout count, encoder.fieldLayout visit.function.source field = .ok layout →
      lengthOf visit.input lengthField = .ok count → 0 < count * layout.elementSize →
      ∃ start, descriptorAt? buffer (visit.base + layout.offset) =
          some (start, count * layout.elementSize) ∧
        start + count * layout.elementSize ≤ buffer.size
  | _ => True

/-- A property of steps holds wherever `start` leads. -/
def Throughout (encoder : Encoder) (buffer : Array UInt8) (holds : Visit → Step → Prop)
    (start : Visit) : Prop :=
  ∀ visit, encoder.Visits buffer start visit → ∀ step ∈ visit.function.steps, holds visit step

/-- A property holds of a step, and throughout whatever the step enters. -/
def StepThroughout (encoder : Encoder) (buffer : Array UInt8) (holds : Visit → Step → Prop)
    (visit : Visit) (step : Step) : Prop :=
  holds visit step ∧
    ∀ next, encoder.StepEnters buffer visit step next → encoder.Throughout buffer holds next

/-- No array with bytes to store has a zero descriptor, wherever `start` leads. -/
abbrev Complete (encoder : Encoder) (buffer : Array UInt8) : Visit → Prop :=
  encoder.Throughout buffer fun visit step => ¬ encoder.Degrades buffer visit step

/-- Every array with bytes to store has a zero descriptor or is stored, wherever `start`
leads. -/
abbrev Settled (encoder : Encoder) (buffer : Array UInt8) : Visit → Prop :=
  encoder.Throughout buffer fun visit step =>
    encoder.Degrades buffer visit step ∨ encoder.Stores buffer visit step

/-- `Complete` for a step and whatever it enters. -/
abbrev StepComplete (encoder : Encoder) (buffer : Array UInt8) : Visit → Step → Prop :=
  encoder.StepThroughout buffer fun visit step => ¬ encoder.Degrades buffer visit step

/-- `Settled` for a step and whatever it enters. -/
abbrev StepSettled (encoder : Encoder) (buffer : Array UInt8) : Visit → Step → Prop :=
  encoder.StepThroughout buffer fun visit step =>
    encoder.Degrades buffer visit step ∨ encoder.Stores buffer visit step

variable {encoder : Encoder} {primitives : Primitives} {buffer : Array UInt8} {visit next : Visit}
  {holds : Visit → Step → Prop}

theorem throughout_iff :
    encoder.Throughout buffer holds visit ↔
      ∀ step ∈ visit.function.steps, encoder.StepThroughout buffer holds visit step := by
  constructor
  · intro h step hStep
    refine ⟨h visit .refl step hStep, fun next hNext other hOther => ?_⟩
    exact h other (Relation.ReflTransGen.head ⟨step, hStep, hNext⟩ hOther)
  · intro h other hOther
    rcases Relation.ReflTransGen.cases_head hOther with rfl | ⟨next, ⟨step, hStep, hNext⟩, hRest⟩
    · exact fun step hStep => (h step hStep).1
    · exact (h step hStep).2 next hNext other hRest

/-- What is settled and complete is stored. -/
theorem Settled.stores (h : encoder.Settled buffer visit)
    (hComplete : encoder.Complete buffer visit) :
    encoder.Throughout buffer (encoder.Stores buffer) visit :=
  fun other hOther step hStep => (h other hOther step hStep).resolve_left
    (hComplete other hOther step hStep)

/-- Whatever a step enters is the run of a function that one of its copies calls. -/
theorem StepEnters.callee {step : Step} (h : encoder.StepEnters buffer visit step next) :
    ∃ copy ∈ step.copies, ∃ source, copy.callee? = some source ∧
      encoder.encodeFunction source = .ok next.function := by
  have hCopy : ∀ {size value pos copy}, encoder.CopyEnters size value pos copy next →
      ∃ source, copy.callee? = some source ∧ encoder.encodeFunction source = .ok next.function := by
    intro size value pos copy hEnters
    cases hEnters with
    | record hCallee => exact ⟨_, rfl, hCallee⟩
    | recordArray hCallee _ => exact ⟨_, rfl, hCallee⟩
  cases h with
  | assign _ hEnters => exact ⟨_, List.mem_cons_self, hCopy hEnters⟩
  | varLen _ _ _ _ _ hEnters => exact ⟨_, List.mem_cons_self, hCopy hEnters⟩
  | union _ _ hArm _ hEnters =>
      exact ⟨_, List.mem_map_of_mem (mem_of_selectArm hArm), hCopy hEnters⟩

/-- Steps that add nothing to the encoded size make copies of fixed size. -/
theorem StepFits.fixed_copies {layout : FieldLayout} {step : Step}
    (h : encoder.StepFits primitives layout none step) :
    ∀ copy ∈ step.copies, copy.varLen = false := by
  intro copy hCopy
  cases step with
  | fixedScalar field value => cases hCopy
  | fixedFill field value => cases hCopy
  | assign field made =>
      obtain rfl := List.mem_singleton.1 hCopy
      exact h.movesCursor
  | varLen field lengthField element made => cases h.2.2.2
  | union field record discriminator arms =>
      obtain ⟨arm, hArm, rfl⟩ := List.mem_map.1 hCopy
      obtain ⟨_, _, _, _, _, _, hFixed⟩ := h.2 arm hArm
      exact hFixed

/-- The steps of a tiling, each with its place and its part of the size. -/
theorem Tiles.exists_fits {source : String} {offset size : Nat} {steps : List Step}
    {parts : List (Option SizeTerm)}
    (h : encoder.Tiles primitives source offset steps parts size) {step : Step}
    (hStep : step ∈ steps) :
    ∃ layout, ∃ part ∈ parts, encoder.StepFits primitives layout part step := by
  induction h with
  | nil => cases hStep
  | cons _ _ _ hFits _ ih =>
      rcases List.mem_cons.1 hStep with rfl | hStep
      · exact ⟨_, _, List.mem_cons_self, hFits⟩
      · obtain ⟨layout, part, hPart, hRest⟩ := ih hStep
        exact ⟨layout, part, List.mem_cons_of_mem _ hPart, hRest⟩

/-- A step that adds nothing to the encoded size enters functions of fixed size only. -/
theorem stepThroughout_of_fixed {layout : FieldLayout} {step : Step}
    (hStill : ∀ visit step, step.movesCursor = false → holds visit step)
    (hFits : encoder.StepFits primitives layout none step) {good : EncodeFunction → Prop}
    (hCalls : ∀ copy ∈ step.copies, encoder.Calls good copy)
    (hGood : ∀ next : Visit, good next.function → next.function.varLen = false →
      encoder.Throughout buffer holds next) : encoder.StepThroughout buffer holds visit step := by
  refine ⟨hStill visit step hFits.movesCursor, fun next hNext => ?_⟩
  obtain ⟨copy, hCopy, source, hSource, hFunction⟩ := hNext.callee
  obtain ⟨callee, hCallee, hVarLen, hCalleeGood⟩ := hCalls copy hCopy source hSource
  rw [hFunction] at hCallee
  cases hCallee
  exact hGood next hCalleeGood (hVarLen.trans (hFits.fixed_copies copy hCopy))

/-- A function of fixed size has no variable-length array, and leads to none. -/
theorem throughout_of_fixed {height : Nat}
    (hStill : ∀ visit step, step.movesCursor = false → holds visit step)
    (h : encoder.Ready primitives height visit.function) (hFixed : visit.function.varLen = false) :
    encoder.Throughout buffer holds visit := by
  induction height generalizing visit with
  | zero => exact h.elim
  | succ height ih =>
      obtain ⟨⟨_, parts, _, hTiles, hParts, _⟩, hCalls⟩ := h
      refine throughout_iff.2 fun step hStep => ?_
      obtain ⟨layout, part, hPart, hFits⟩ := hTiles.exists_fits hStep
      obtain rfl := hParts hFixed part hPart
      exact stepThroughout_of_fixed hStill hFits (hCalls step hStep) fun next => ih

section VarLen

variable {field lengthField : String} {layout : FieldLayout} {count : Nat}
  (hLayout : encoder.fieldLayout visit.function.source field = .ok layout)
  (hCount : lengthOf visit.input lengthField = .ok count)
include hLayout hCount

theorem degrades_varLen_iff (element : Representation) (copy : Copy) :
    encoder.Degrades buffer visit (.varLen field lengthField element copy) ↔
      0 < count * layout.elementSize ∧
        descriptorAt? buffer (visit.base + layout.offset) = some (0, 0) := by
  constructor
  · rintro ⟨place, number, hOther, hNumber, hZero⟩
    cases hLayout.symm.trans hOther
    cases hCount.symm.trans hNumber
    exact hZero
  · exact fun hZero => ⟨layout, count, hLayout, hCount, hZero⟩

theorem stores_varLen_iff (element : Representation) (copy : Copy) :
    encoder.Stores buffer visit (.varLen field lengthField element copy) ↔
      (0 < count * layout.elementSize →
        ∃ start, descriptorAt? buffer (visit.base + layout.offset) =
            some (start, count * layout.elementSize) ∧
          start + count * layout.elementSize ≤ buffer.size) := by
  constructor
  · exact fun h => h layout count hLayout hCount
  · intro h place number hOther hNumber
    cases hLayout.symm.trans hOther
    cases hCount.symm.trans hNumber
    exact h

end VarLen

theorem not_degrades {step : Step} (h : step.movesCursor = false) :
    ¬ encoder.Degrades buffer visit step := by
  cases step with
  | varLen field lengthField element copy => cases h
  | _ => exact id

theorem stores_of_still {step : Step} (h : step.movesCursor = false) :
    encoder.Stores buffer visit step := by
  cases step with
  | varLen field lengthField element copy => cases h
  | _ => trivial

/-! ## What is kept -/

/-- What a run has written to its place and to the payload is in `final`. -/
def Kept (pos size : Nat) (before after : Output) (final : Array UInt8) : Prop :=
  ∀ i, (pos ≤ i ∧ i < pos + size) ∨ (before.cursor ≤ i ∧ i < after.cursor) →
    final[i]? = after.buffer[i]?

/-- Payload goes behind `stop`, or nowhere because the cursor has reached the limit. -/
def Clear (stop : Nat) (out : Output) : Prop :=
  stop ≤ out.cursor ∨ payloadLimit ≤ out.cursor

end Encoder

/-- Once the cursor has reached the limit it stays. -/
theorem Frame.cursor_eq {pos size : Nat} {varLen : Bool} {before after : Output}
    (h : Frame pos size varLen before after) (hLimit : payloadLimit ≤ before.cursor) :
    after.cursor = before.cursor := by
  have hLe := h.cursor_le
  rcases h.cursor_bound with hEq | hBound
  · exact hEq
  · omega

namespace Encoder

theorem Clear.mono {stop less : Nat} {out : Output} (h : Clear stop out) (hLe : less ≤ stop) :
    Clear less out :=
  h.imp_left fun hStop => Nat.le_trans hLe hStop

theorem Clear.of_frame {stop pos size : Nat} {varLen : Bool} {before after : Output}
    (h : Clear stop before) (hFrame : Frame pos size varLen before after) : Clear stop after := by
  have hLe := hFrame.cursor_le
  exact h.imp (fun hStop => Nat.le_trans hStop hLe) fun hLimit => Nat.le_trans hLimit hLe

/-- Of what two runs have written, the second one behind the first, the first part is kept
if all is. -/
theorem Kept.first {pos size pos' size' whole : Nat} {varLen varLen' : Bool}
    {before middle after : Output} {final : Array UInt8} (h : Kept pos whole before after final)
    (hFirst : Frame pos size varLen before middle) (hSecond : Frame pos' size' varLen' middle after)
    (hClear : Clear (pos + whole) before) (hPos : pos + size ≤ pos')
    (hSize : pos' + size' ≤ pos + whole) : Kept pos size before middle final := by
  intro i hi
  have hLe := hSecond.cursor_le
  have hOther : (i < pos' ∨ pos' + size' ≤ i) ∧ (i < middle.cursor ∨ after.cursor ≤ i) := by
    have hBefore := hFirst.cursor_le
    rcases hClear with hStop | hLimit
    · omega
    · have hFull := hFirst.cursor_eq hLimit
      have hStill := hSecond.cursor_eq (Nat.le_trans hLimit hBefore)
      omega
  rw [h i (by omega), hSecond.outside i hOther.1 hOther.2]

theorem Kept.second {pos size pos' size' : Nat} {before middle after : Output}
    {final : Array UInt8} (h : Kept pos size before after final)
    (hCursor : before.cursor ≤ middle.cursor) (hPos : pos ≤ pos')
    (hSize : pos' + size' ≤ pos + size) : Kept pos' size' middle after final := by
  intro i hi
  exact h i (by omega)

end Encoder

end WireSchema
