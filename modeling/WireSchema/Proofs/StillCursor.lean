import WireSchema.Proofs.ContainedTypes
import WireSchema.Proofs.EncodeSafety

/-!
# Runs that reserve no payload

Only the storing of a variable-length array moves the cursor.  A function of a type of
fixed size stores no array, and neither does any function it calls, so its runs leave the
cursor where it was.  This holds for every source value and every layout, whether or not
the writes have room, and also for runs that end in a fault.

The elements of a variable-length array are of fixed size.  So while they are copied, the
cursor stays at the end of their array.

## Main results

* `Encoder.still_step`: one step, if the functions it calls leave the cursor alone.
* `Compiled.still_run`: the functions of types of fixed size in a compiled program.
* `Compiled.still_elements`: the elements of its variable-length arrays.
-/

namespace WireSchema

namespace Encode

variable {α β : Type}

/-- The cursor at the end of a run from `out`, after a result or after a fault. -/
def lastCursor (m : Encode α) (out : Output) : Nat :=
  match m out with
  | .ok _ after => after.cursor
  | .error _ after => after.cursor

/-- The run ends with the cursor it started with. -/
def Still (m : Encode α) : Prop :=
  ∀ out, m.lastCursor out = out.cursor

namespace Still

theorem pure (a : α) : Still (pure a : Encode α) :=
  fun _ => rfl

theorem throw (fault : Fault) : Still (throw fault : Encode α) :=
  fun _ => rfl

theorem bind {m : Encode α} {k : α → Encode β} (h : Still m) (hk : ∀ a, Still (k a)) :
    Still (m >>= k) := by
  intro out
  have hFirst := h out
  unfold lastCursor at hFirst
  show (match EStateM.bind m k out with
    | .ok _ after => after.cursor
    | .error _ after => after.cursor) = _
  unfold EStateM.bind
  cases hRun : m out with
  | ok a mid =>
      rw [hRun] at hFirst
      exact (hk a mid).trans hFirst
  | error fault mid =>
      rw [hRun] at hFirst
      exact hFirst

/-- Looking something up does not touch the output, but what follows may depend on it. -/
theorem lift_bind {x : Except Fault α} {k : α → Encode β} (hk : ∀ a, x = .ok a → Still (k a)) :
    Still (liftM x >>= k) := by
  cases x with
  | ok a => exact hk a rfl
  | error fault => exact throw fault

theorem forM {γ : Type} {f : γ → Encode Unit} {l : List γ} (h : ∀ x ∈ l, Still (f x)) :
    Still (l.forM f) := by
  induction l with
  | nil => exact pure ()
  | cons x rest ih =>
      exact (h x List.mem_cons_self).bind fun _ => ih fun y hy => h y (List.mem_cons_of_mem _ hy)

end Still

/-! ## Writes -/

theorem still_ensureRoom (pos size : Nat) : Still (ensureRoom pos size) := by
  intro out
  show lastCursor (if pos + size ≤ out.buffer.size then Pure.pure () else throw .outOfBounds)
    out = _
  split <;> rfl

theorem still_store (pos : Nat) (bytes : List UInt8) : Still (store pos bytes) :=
  fun _ => rfl

theorem still_fill (pos size : Nat) (byte : UInt8) : Still (fill pos size byte) :=
  (still_ensureRoom pos size).bind fun _ => still_store pos _

theorem still_storeUInt16 (pos value : Nat) : Still (storeUInt16 pos value) :=
  (still_ensureRoom pos 2).bind fun _ => still_store pos _

theorem still_storeDescriptor (pos offset length : Nat) :
    Still (storeDescriptor pos offset length) :=
  (still_storeUInt16 pos offset).bind fun _ => still_storeUInt16 (pos + 2) length

theorem still_scalar (pos size : Nat) (slot : Option ScalarClass) (value : Option Value)
    (field : String) : Still (scalar pos size slot value field) :=
  (still_ensureRoom pos size).bind fun _ => Still.lift_bind fun bytes _ => still_store pos bytes

theorem still_elements {element : Option Value → Nat → Encode Unit}
    (h : ∀ item pos, Still (element item pos)) (size count : Nat) (items : List Value) (pos : Nat) :
    Still (elements element size count items pos) := by
  induction count generalizing items pos with
  | zero => exact Still.pure ()
  | succ count ih => exact (h items.head? pos).bind fun _ => ih items.tail (pos + size)

end Encode

/-! ## Steps -/

namespace Encoder

variable {encoder : Encoder} {call : EncodeCall}

/-- The function that a copy calls leaves the cursor alone. -/
def CallsStill (encoder : Encoder) (call : EncodeCall) (copy : Copy) : Prop :=
  ∀ source, copy.callee? = some source → ∀ function, encoder.encodeFunction source = .ok function →
    ∀ value pos, (call function value pos).Still

theorem still_assign {copy : Copy} (h : encoder.CallsStill call copy) (field : String)
    (value : Option Value) (pos : Nat) (layout : FieldLayout) :
    (encoder.assign call copy field value pos layout).Still := by
  cases copy with
  | scalar => exact Encode.still_scalar _ _ _ _ _
  | array length =>
      exact Encode.still_elements (fun _ _ => Encode.still_scalar _ _ _ _ _) _ _ _ _
  | record source function varLen =>
      exact Encode.Still.lift_bind fun callee hCallee => h source rfl callee hCallee value pos
  | recordArray source function length =>
      refine Encode.Still.lift_bind fun callee hCallee => ?_
      exact Encode.still_elements (h source rfl callee hCallee) _ _ _ _

/-- A step that stores no array leaves the cursor alone, if what it calls does. -/
theorem still_step {step : Step} (hMoves : ∀ field lengthField element copy,
      step ≠ .varLen field lengthField element copy)
    (hCalls : ∀ copy ∈ step.copies, encoder.CallsStill call copy) (source : String)
    (input : Option Value) (base : Nat) : (encoder.step call source input base step).Still := by
  refine Encode.Still.lift_bind fun layout _ => ?_
  cases step with
  | fixedScalar field value =>
      exact Encode.Still.lift_bind fun n _ => Encode.still_scalar _ _ _ _ _
  | fixedFill field value =>
      exact Encode.Still.lift_bind fun n _ => Encode.still_fill _ _ _
  | assign field copy => exact still_assign (hCalls copy List.mem_cons_self) _ _ _ _
  | varLen field lengthField element copy => exact absurd rfl (hMoves _ _ _ _)
  | union field record discriminator arms =>
      refine (Encode.still_fill _ _ _).bind fun _ => ?_
      refine Encode.Still.lift_bind fun selector _ => Encode.Still.lift_bind fun arm hArm => ?_
      refine Encode.Still.lift_bind fun variant _ => ?_
      exact still_assign (hCalls arm.copy (List.mem_map_of_mem (mem_of_selectArm hArm))) _ _ _ _

end Encoder

/-! ## Functions of types of fixed size -/

namespace Compiled

variable {declarations : Declarations} {request : Request} {naming : Naming}

section Marks

variable {program : Program}

/-- An encode function is marked as its type is. -/
theorem varLen_encodeFunction (h : Compiled declarations request naming program)
    {function : EncodeFunction} (hFunction : function ∈ program.encodeFunctions) :
    function.varLen = true ↔ declarations.IsVarLen naming.index function.source := by
  obtain ⟨entry, hEntry, hMade⟩ := h.exists_entry hFunction
  obtain ⟨hSource, hVarLen, _⟩ := Naming.encodeFunction_eq_ok hMade
  rw [hSource, hVarLen]
  exact h.sound.varLen_iff_isVarLen hEntry

/-- A function takes the payload exactly if the copies that call it pass it on. -/
theorem varLen_callee (h : Compiled declarations request naming program)
    {function callee : EncodeFunction} (hFunction : function ∈ program.encodeFunctions)
    (hCallee : callee ∈ program.encodeFunctions) {step : Step} (hStep : step ∈ function.steps)
    {copy : Copy} (hCopy : copy ∈ step.copies) (hCall : copy.callee? = some callee.source) :
    callee.varLen = copy.varLen := by
  obtain ⟨before, after, hSplit⟩ := List.append_of_mem hFunction
  obtain ⟨lead, entry, tail, hOrder, _, hMade, _⟩ := h.exists_order hSplit
  obtain ⟨member, hMember, hLowered⟩ :=
    exists_left_of_mem (Naming.encodeFunction_eq_ok hMade).2.2 hStep
  obtain ⟨nested, hNested, hSame, _, hVarLen⟩ := h.callee_before hOrder hMember hLowered hCopy hCall
  have hGraph := (h.sound.enumeration_postOrder naming.graph.roots).mem_entries nested
    (by rw [hOrder]; exact List.mem_append_left _ hNested)
  rw [← hVarLen, Bool.eq_iff_iff, h.varLen_encodeFunction hCallee, ← hSame]
  exact (h.sound.varLen_iff_isVarLen hGraph).symm

/-- The steps of a function of a type of fixed size store no arrays and pass no payload on. -/
theorem fixed_steps (h : Compiled declarations request naming program)
    {function : EncodeFunction} (hFunction : function ∈ program.encodeFunctions)
    (hFixed : function.varLen = false) {step : Step} (hStep : step ∈ function.steps) :
    (∀ field lengthField element copy, step ≠ .varLen field lengthField element copy) ∧
      ∀ copy ∈ step.copies, copy.varLen = false := by
  obtain ⟨entry, hEntry, _, hVarLen, member, hMember, hLowered⟩ :=
    h.exists_stepped_member hFunction hStep
  obtain ⟨hNoLength, hNested⟩ := h.fixed_members hEntry (hVarLen.symm.trans hFixed) hMember
  rcases Naming.step_eq_ok hLowered with
    ⟨_, made, hCopied, rfl⟩ | ⟨value, _, rfl⟩ | ⟨lengthField, hDecisive, _, _⟩ |
      ⟨_, _, _, _, hUnion⟩
  · refine ⟨fun _ _ _ _ hEq => (by cases hEq), fun copy hCopy => ?_⟩
    obtain rfl := List.mem_singleton.1 hCopy
    cases hCase : copy.callee? with
    | none => cases copy <;> first | rfl | cases hCase
    | some source =>
        obtain ⟨_, nested, hFound, _, _, hMark⟩ := callee_of_copy hCopied hCase
        exact hMark.symm.trans (hNested nested hFound)
  · rcases Naming.fixedStep_cases member value with hStep | hStep <;> rw [hStep] <;>
      exact ⟨fun _ _ _ _ hEq => (by cases hEq), fun _ hCopy => (by cases hCopy)⟩
  · rw [Member.lengthField?_of_decisive? hDecisive] at hNoLength
    cases hNoLength
  · obtain ⟨union, _, arms, hFound, _, _, _, hArms, rfl⟩ := Naming.unionStep_eq_ok hUnion
    refine ⟨fun _ _ _ _ hEq => (by cases hEq), fun copy hCopy => ?_⟩
    obtain ⟨arm, hArm, rfl⟩ := List.mem_map.1 hCopy
    obtain ⟨pair, _, hMade⟩ := exists_left_of_mem hArms hArm
    exact h.arm_fixed (TypeGraph.nested?_eq_some hFound).1 (hNested union hFound) hMade

/-- The elements of a variable-length array have a fixed size. -/
theorem elements_fixed (h : Compiled declarations request naming program)
    {function : EncodeFunction} (hFunction : function ∈ program.encodeFunctions)
    {field lengthField : String} {element : Representation} {copy : Copy}
    (hStep : .varLen field lengthField element copy ∈ function.steps) : copy.varLen = false := by
  obtain ⟨_, _, _, _, member, _, hLowered⟩ := h.exists_stepped_member hFunction hStep
  rcases Naming.varLen_of_step hLowered with rfl | ⟨_, _, rfl⟩ <;> rfl

end Marks

section Runs

variable {encoder : Encoder}

/-- **Functions of fixed size leave the cursor alone**, however their runs end. -/
theorem still_run (h : Compiled declarations request naming encoder.program) (fuel : Nat)
    {function : EncodeFunction} (hFunction : function ∈ encoder.program.encodeFunctions)
    (hFixed : function.varLen = false) (value : Option Value) (base : Nat) :
    (encoder.run fuel function value base).Still := by
  induction fuel generalizing function value base with
  | zero => exact Encode.Still.throw .endless
  | succ fuel ih =>
      rw [Encoder.run_succ]
      split
      · refine Encode.Still.forM fun step hStep => ?_
        obtain ⟨hNoArray, hCopies⟩ := h.fixed_steps hFunction hFixed hStep
        refine Encoder.still_step hNoArray
          (fun copy hCopy source hSource callee hCallee => ?_) _ _ _
        obtain rfl := Encoder.source_of_encodeFunction hCallee
        have hMem := Encoder.mem_of_encodeFunction hCallee
        refine ih hMem ?_
        rw [h.varLen_callee hFunction hMem hStep hCopy hSource]
        exact hCopies copy hCopy
      · exact Encode.Still.throw _

/-- Copying the elements of a variable-length array leaves the cursor alone. -/
theorem still_elements (h : Compiled declarations request naming encoder.program) (fuel : Nat)
    {function : EncodeFunction} (hFunction : function ∈ encoder.program.encodeFunctions)
    {field lengthField : String} {element : Representation} {copy : Copy}
    (hStep : .varLen field lengthField element copy ∈ function.steps) (count : Nat)
    (items : Option Value) (start : Nat) (layout : FieldLayout) :
    (encoder.elementCopies (encoder.run fuel) field count copy items start layout).Still := by
  refine Encode.still_elements (fun item pos => Encoder.still_assign ?_ _ _ _ _) _ _ _ _
  intro source hSource callee hCallee value pos
  obtain rfl := Encoder.source_of_encodeFunction hCallee
  have hMem := Encoder.mem_of_encodeFunction hCallee
  refine h.still_run fuel hMem ?_ value pos
  rw [h.varLen_callee hFunction hMem hStep List.mem_cons_self hSource]
  exact h.elements_fixed hFunction hStep

end Runs

end Compiled

end WireSchema
