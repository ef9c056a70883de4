import WireSchema.Proofs.RunParts
import WireSchema.Proofs.SafeExecution
import WireSchema.Proofs.WellShapedValues

/-!
# Which readings are checked

A run takes each source value that it reads for one of four things: a number, the record of a
structure, a union, or an array.  A value that is taken for a number or for a structure is
checked: if it is there and is something else, the run ends with an error that names it.  A
value that is taken for a union or for an array is not.  It is only asked for its members or
its items, and any other value has none, so its place is filled as if there were no value.

`Encoder.Consults` says what a part of a run takes a value for.  A part that comes to its end
has left out nothing that belongs to it, neither a value that it reads nor work that it begins,
so `Encoder.Consulted` has all the values that a run that succeeds has read.

## Main definitions

* `Shape`, `Reading`: a source value and what it is taken for.
* `Encoder.Consults`: what a part of a run takes a source value for.
* `Encoder.Exhaustive`: all that a part of a run reads and begins.

## Main results

* `Encoder.throws_of_consults`: a value of the wrong shape is a fault, if it is checked.
* `Encoder.exhaustive_of_ok`: a part of a run that comes to its end is exhaustive.
* `shapes_checked_except_containers`: both, for encoding into a buffer, and what follows from
  success.
-/

namespace WireSchema

/-! ## Shapes -/

/-- Whether the value is an array. -/
def Value.isArray : Value → Bool
  | array _ => true
  | _ => false

/-- What a source value is taken for. -/
inductive Shape where
  | number
  | record
  | union
  | array
  deriving DecidableEq

/-- A union is a record with the member that is selected. -/
def Shape.accepts : Shape → Value → Bool
  | number => Value.isNumber
  | record => Value.isRecord
  | union => Value.isRecord
  | array => Value.isArray

/-- What the error says that a value of another shape was expected to be, if there is one. -/
def Shape.expectation? : Shape → Option Expectation
  | number => some .number
  | record => some .record
  | union => none
  | array => none

/-- A source value, or the lack of one, and what it is taken for. -/
structure Reading where
  /-- What an error would call it. -/
  name : String
  shape : Shape
  value : Option Value

namespace Reading

/-- A value that is there has the shape that it is taken to have. -/
def Fits (reading : Reading) : Prop :=
  reading.value.all reading.shape.accepts = true

instance (reading : Reading) : Decidable reading.Fits :=
  inferInstanceAs (Decidable (_ = true))

end Reading

/-! ## Readings -/

namespace Encoder

/-- Work that is done from a state takes a source value for something.  A scalar is looked at
once its place is known to be one for a number and inside the buffer, an array once it has an
element to be copied, and a union once a member is selected. -/
inductive Consults (encoder : Encoder) : Work × Output → Reading → Prop
  | record {fuel base : Nat} {function : EncodeFunction} {input : Option Value} {out : Output} :
      Consults encoder (.call (fuel + 1) function input base, out) ⟨function.source, .record, input⟩
  | count {fuel base : Nat} {source field lengthField : String} {input : Option Value}
      {element : Representation} {copy : Copy} {layout : FieldLayout} {out : Output} :
      encoder.fieldLayout source field = .ok layout →
      Consults encoder (.step fuel source input base (.varLen field lengthField element copy), out)
        ⟨lengthField, .number, fieldOf input lengthField⟩
  | items {fuel base count length : Nat} {source field lengthField : String}
      {input : Option Value} {element : Representation} {copy : Copy} {layout : FieldLayout}
      {out : Output} :
      encoder.fieldLayout source field = .ok layout → lengthOf input lengthField = .ok count →
      reservation? count layout.elementSize out.cursor out.buffer.size = some length →
      base + layout.offset + descriptorSize ≤ out.buffer.size →
      Consults encoder (.step fuel source input base (.varLen field lengthField element copy), out)
        ⟨field, .array, fieldOf input field⟩
  | discriminator {fuel base : Nat} {source field discriminator : String} {input : Option Value}
      {record : RecordRef} {arms : List UnionArm} {layout : FieldLayout} {out zeroed : Output} :
      encoder.fieldLayout source field = .ok layout →
      Encode.fill (base + layout.offset) layout.size 0 out = .ok () zeroed →
      Consults encoder (.step fuel source input base (.union field record discriminator arms), out)
        ⟨discriminator, .number, fieldOf input discriminator⟩
  | union {fuel base : Nat} {source field discriminator : String} {input : Option Value}
      {record : RecordRef} {arms : List UnionArm} {layout variant : FieldLayout}
      {selector : Int64} {arm : UnionArm} {out zeroed : Output} :
      encoder.fieldLayout source field = .ok layout →
      Encode.fill (base + layout.offset) layout.size 0 out = .ok () zeroed →
      integerOf (fieldOf input discriminator) discriminator = .ok selector →
      encoder.selectArm field selector arms = .ok arm →
      encoder.fieldLayout record.source arm.member = .ok variant →
      Consults encoder (.step fuel source input base (.union field record discriminator arms), out)
        ⟨field, .union, fieldOf input field⟩
  | number {fuel pos : Nat} {field : String} {value : Option Value} {layout : FieldLayout}
      {out : Output} :
      pos + layout.elementSize ≤ out.buffer.size → layout.scalar ≠ none →
      Consults encoder (.copy fuel .scalar field value pos layout, out) ⟨field, .number, value⟩
  | array {fuel pos length : Nat} {field : String} {value : Option Value} {layout : FieldLayout}
      {out : Output} :
      0 < length →
      Consults encoder (.copy fuel (.array length) field value pos layout, out)
        ⟨field, .array, value⟩
  | records {fuel pos length : Nat} {source name field : String} {value : Option Value}
      {layout : FieldLayout} {callee : EncodeFunction} {out : Output} :
      encoder.encodeFunction source = .ok callee → 0 < length →
      Consults encoder (.copy fuel (.recordArray source name length) field value pos layout, out)
        ⟨field, .array, value⟩

end Encoder

/-! ## Checks -/

section Checks

variable {value : Value} (h : value.isNumber = false) (field : String)
include h

theorem integerOf_misfit :
    integerOf (some value) field = .error (.error (.typeMismatch field .number)) := by
  cases value with
  | int n => cases h
  | float x => cases h
  | array items => rfl
  | record fields => rfl

theorem floatOf_misfit :
    floatOf (some value) field = .error (.error (.typeMismatch field .number)) := by
  cases value with
  | int n => cases h
  | float x => cases h
  | array items => rfl
  | record fields => rfl

theorem lengthOf_misfit {input : Option Value} (hField : fieldOf input field = some value) :
    lengthOf input field = .error (.error (.typeMismatch field .number)) := by
  rw [lengthOf, hField, integerOf_misfit h]
  rfl

theorem scalarBytes_misfit {slot : Option ScalarClass} (hSlot : slot ≠ none) (size : Nat) :
    scalarBytes size slot (some value) field = .error (.error (.typeMismatch field .number)) := by
  unfold scalarBytes
  rw [integerOf_misfit h, floatOf_misfit h]
  split
  · exact absurd rfl hSlot
  all_goals rfl

end Checks

/-- A reading that does not fit has a value of another shape. -/
theorem Reading.exists_of_not_fits {reading : Reading} (h : ¬ reading.Fits) :
    ∃ value, reading.value = some value ∧ reading.shape.accepts value = false := by
  unfold Reading.Fits at h
  cases hValue : reading.value with
  | none =>
      rw [hValue] at h
      exact absurd rfl h
  | some value =>
      rw [hValue] at h
      exact ⟨value, rfl, by simpa using h⟩

theorem Value.items_misfit {value : Value} (h : value.isArray = false) : value.items = [] := by
  cases value with
  | int n => rfl
  | float x => rfl
  | array items => cases h
  | record fields => rfl

theorem Value.field?_misfit {value : Value} (h : value.isRecord = false) (name : String) :
    value.field? name = none := by
  cases value with
  | int n => rfl
  | float x => rfl
  | array items => rfl
  | record fields => cases h

namespace Encoder

variable {encoder : Encoder}

/-- **One reading**: a value of the wrong shape ends the work with an error that names it, if
values of that shape are checked. -/
theorem throws_of_consults {work : Work × Output} {reading : Reading}
    (h : encoder.Consults work reading) {expected : Expectation}
    (hChecked : reading.shape.expectation? = some expected) (hMisfit : ¬ reading.Fits) :
    (encoder.perform work.1).Throws work.2 (.error (.typeMismatch reading.name expected)) := by
  obtain ⟨value, hValue, hShape⟩ := Reading.exists_of_not_fits hMisfit
  cases h with
  | record =>
      cases hChecked
      obtain rfl : _ = some value := hValue
      show Encode.Throws (if (some value).all Value.isRecord then _ else _) _ _
      have hRecord : value.isRecord = false := hShape
      rw [if_neg (by simp [hRecord])]
      exact .throw _ _
  | count hLayout =>
      cases hChecked
      exact .lift_bind_of_ok hLayout (.lift_bind (lengthOf_misfit hShape _ hValue))
  | discriminator hLayout hFill =>
      cases hChecked
      obtain hValue : fieldOf _ _ = some value := hValue
      refine .lift_bind_of_ok hLayout (.bind_of_ok hFill (.lift_bind ?_))
      rw [hValue]
      exact integerOf_misfit hShape _
  | number hRoom hSlot =>
      cases hChecked
      obtain rfl : _ = some value := hValue
      refine Encode.Throws.bind_of_ok (Encode.ensureRoom_eq hRoom) ?_
      exact .lift_bind (scalarBytes_misfit hShape _ hSlot _)
  | items => cases hChecked
  | union => cases hChecked
  | array => cases hChecked
  | records => cases hChecked

/-- Encoding the value as the root into the buffer comes to the work. -/
def Reached (encoder : Encoder) (root : String) (value : Value) (buffer : Array UInt8)
    (work : Work × Output) : Prop :=
  ∃ point needed function, encoder.prepare root buffer.size = .ok (point, needed, function) ∧
    Relation.ReflTransGen encoder.Begins
      (.call (encoder.callLimit value buffer.size) function (some value) 0,
        ⟨buffer, min needed payloadLimit⟩) work

/-- Encoding the value as the root into the buffer takes a source value for something. -/
def Consulted (encoder : Encoder) (root : String) (value : Value) (buffer : Array UInt8)
    (reading : Reading) : Prop :=
  ∃ work, encoder.Reached root value buffer work ∧ encoder.Consults work reading

theorem Reached.tail {root : String} {value : Value} {buffer : Array UInt8}
    {work next : Work × Output} (h : encoder.Reached root value buffer work)
    (hNext : encoder.Begins work next) : encoder.Reached root value buffer next := by
  obtain ⟨point, needed, function, hPrepare, hParts⟩ := h
  exact ⟨point, needed, function, hPrepare, hParts.tail hNext⟩

/-- What ends work that encoding into a buffer comes to is what the encoding ends with. -/
theorem Reached.encodeInto_eq {root : String} {value : Value} {buffer : Array UInt8}
    {work : Work × Output} (h : encoder.Reached root value buffer work) {fault : Fault}
    (hThrows : (encoder.perform work.1).Throws work.2 fault) :
    (encoder.encodeInto root value buffer).1 = .error fault := by
  obtain ⟨point, needed, function, hPrepare, hParts⟩ := h
  obtain ⟨after, hRun⟩ := throws_of_parts hParts hThrows
  obtain hRun : encoder.run (encoder.callLimit value buffer.size) function (some value) 0
    ⟨buffer, min needed payloadLimit⟩ = _ := hRun
  unfold Encoder.encodeInto
  rw [hPrepare]
  dsimp only
  rw [hRun]

/-- A value of the wrong shape is what encoding into a buffer ends with, if it is checked. -/
theorem encodeInto_of_consulted {root : String} {value : Value} {buffer : Array UInt8}
    {reading : Reading} (h : encoder.Consulted root value buffer reading) {expected : Expectation}
    (hChecked : reading.shape.expectation? = some expected) (hMisfit : ¬ reading.Fits) :
    (encoder.encodeInto root value buffer).1 =
      .error (.error (.typeMismatch reading.name expected)) := by
  obtain ⟨work, hReached, hConsults⟩ := h
  exact hReached.encodeInto_eq (throws_of_consults hConsults hChecked hMisfit)

/-! ## Exhaustive parts -/

/-- Work that is done from a state takes for something whatever it reads, and begins whatever
belongs to it.  An array that is not stored is not read. -/
def Exhaustive (encoder : Encoder) (work : Work × Output) : Prop :=
  match work.1 with
  | .call fuel function input base =>
    encoder.Consults work ⟨function.source, .record, input⟩ ∧
      ∃ below, fuel = below + 1 ∧ ∀ step ∈ function.steps, ∃ mid,
        encoder.Begins work (.step below function.source input base step, mid)
  | .step _ _ _ _ (.fixedScalar _ _) => True
  | .step _ _ _ _ (.fixedFill _ _) => True
  | .step fuel _ input _ (.assign field copy) =>
    ∃ pos layout, encoder.Begins work
      (.copy fuel copy field (fieldOf input field) pos layout, work.2)
  | .step fuel source input _ (.varLen field lengthField _ copy) =>
    encoder.Consults work ⟨lengthField, .number, fieldOf input lengthField⟩ ∧
      ∃ layout count, encoder.fieldLayout source field = .ok layout ∧
        lengthOf input lengthField = .ok count ∧
        ((reservation? count layout.elementSize work.2.cursor work.2.buffer.size).isSome →
          encoder.Consults work ⟨field, .array, fieldOf input field⟩ ∧
            ∀ i < count, ∃ pos mid, encoder.Begins work
              (.copy fuel copy field (itemsOf (fieldOf input field))[i]? pos layout.element, mid))
  | .step fuel _ input _ (.union field _ discriminator arms) =>
    encoder.Consults work ⟨discriminator, .number, fieldOf input discriminator⟩ ∧
      encoder.Consults work ⟨field, .union, fieldOf input field⟩ ∧
      ∃ selector arm, integerOf (fieldOf input discriminator) discriminator = .ok selector ∧
        encoder.selectArm field selector arms = .ok arm ∧
        ∃ pos variant mid, encoder.Begins work
          (.copy fuel arm.copy arm.member (fieldOf (fieldOf input field) arm.member) pos variant,
            mid)
  | .copy _ .scalar field value _ _ => encoder.Consults work ⟨field, .number, value⟩
  | .copy fuel (.array length) field value _ layout =>
    (0 < length → encoder.Consults work ⟨field, .array, value⟩) ∧
      ∀ i < length, ∃ pos mid, encoder.Begins work
        (.copy fuel .scalar field (itemsOf value)[i]? pos layout, mid)
  | .copy fuel (.record source _ _) _ value pos _ =>
    ∃ callee, encoder.encodeFunction source = .ok callee ∧
      encoder.Begins work (.call fuel callee value pos, work.2)
  | .copy fuel (.recordArray source _ length) field value _ _ =>
    (0 < length → encoder.Consults work ⟨field, .array, value⟩) ∧
      ∃ callee, encoder.encodeFunction source = .ok callee ∧
        ∀ i < length, ∃ pos mid, encoder.Begins work
          (.call fuel callee (itemsOf value)[i]? pos, mid)

theorem exhaustive_call {fuel : Nat} {function : EncodeFunction} {input : Option Value} {base : Nat}
    {out after : Output} (h : encoder.run fuel function input base out = .ok () after) :
    encoder.Exhaustive (.call fuel function input base, out) := by
  cases fuel with
  | zero => cases h
  | succ fuel =>
      refine ⟨.record, fuel, rfl, fun step hStep => ?_⟩
      obtain ⟨hRecord, hRun⟩ := steps_of_run h
      obtain ⟨done, rest, hSplit⟩ := List.append_of_mem hStep
      rw [hSplit] at hRun
      obtain ⟨mid, hDone⟩ := Encode.exists_of_forM_ok hRun
      exact ⟨mid, .step hRecord hSplit hDone⟩

theorem exhaustive_varLen {fuel : Nat} {source field lengthField : String} {input : Option Value}
    {base : Nat} {element : Representation} {copy : Copy} {out after : Output}
    (h : encoder.step (encoder.run fuel) source input base
      (.varLen field lengthField element copy) out = .ok () after) :
    encoder.Exhaustive
      (.step fuel source input base (.varLen field lengthField element copy), out) := by
  obtain ⟨layout, hLayout, h⟩ := Encode.lift_bind_ok.1 h
  obtain ⟨count, hCount, h⟩ := Encode.lift_bind_ok.1 h
  refine ⟨.count hLayout, layout, count, hLayout, hCount, fun hStored => ?_⟩
  obtain ⟨length, hReserve⟩ := Option.isSome_iff_exists.1 hStored
  have hRoom := room_of_varLen hReserve h
  rw [varLen_of_some hReserve hRoom] at h
  refine ⟨.items hLayout hCount hReserve hRoom, fun i hi => ?_⟩
  obtain ⟨mid, hDone⟩ := Encode.exists_of_elements_ok h hi
  exact ⟨_, mid, .element hLayout hCount hReserve hRoom hi hDone⟩

theorem exhaustive_union {fuel : Nat} {source field discriminator : String} {input : Option Value}
    {base : Nat} {record : RecordRef} {arms : List UnionArm} {out after : Output}
    (h : encoder.step (encoder.run fuel) source input base
      (.union field record discriminator arms) out = .ok () after) :
    encoder.Exhaustive
      (.step fuel source input base (.union field record discriminator arms), out) := by
  obtain ⟨layout, hLayout, h⟩ := Encode.lift_bind_ok.1 h
  obtain ⟨_, zeroed, hFill, h⟩ := Encode.bind_ok.1 h
  obtain ⟨selector, hSelector, h⟩ := Encode.lift_bind_ok.1 h
  obtain ⟨arm, hArm, h⟩ := Encode.lift_bind_ok.1 h
  obtain ⟨variant, hVariant, _⟩ := Encode.lift_bind_ok.1 h
  exact ⟨.discriminator hLayout hFill, .union hLayout hFill hSelector hArm hVariant, selector, arm,
    hSelector, hArm, _, variant, zeroed, .arm hLayout hFill hSelector hArm hVariant⟩

theorem exhaustive_copy {fuel : Nat} {copy : Copy} {field : String} {value : Option Value}
    {pos : Nat} {layout : FieldLayout} {out after : Output}
    (h : encoder.assign (encoder.run fuel) copy field value pos layout out = .ok () after) :
    encoder.Exhaustive (.copy fuel copy field value pos layout, out) := by
  cases copy with
  | scalar =>
      obtain ⟨_, _, hEnsured, h⟩ := Encode.bind_ok.1 h
      obtain ⟨hRoom, rfl⟩ := Encode.room_of_ensureRoom hEnsured
      obtain ⟨bytes, hBytes, _⟩ := Encode.lift_bind_ok.1 h
      refine .number hRoom fun hNone => ?_
      rw [hNone] at hBytes
      cases hBytes
  | array length =>
      refine ⟨.array, fun i hi => ?_⟩
      obtain ⟨mid, hDone⟩ := Encode.exists_of_elements_ok h hi
      exact ⟨_, mid, .scalar hi hDone⟩
  | record source name varLen =>
      obtain ⟨callee, hCallee, _⟩ := Encode.lift_bind_ok.1 h
      exact ⟨callee, hCallee, .record hCallee⟩
  | recordArray source name length =>
      obtain ⟨callee, hCallee, h⟩ := Encode.lift_bind_ok.1 h
      refine ⟨.records hCallee, callee, hCallee, fun i hi => ?_⟩
      obtain ⟨mid, hDone⟩ := Encode.exists_of_elements_ok h hi
      exact ⟨_, mid, .recordElement hCallee hi hDone⟩

/-- **Nothing is left out**: work that comes to its end has read, and begun, all that belongs
to it. -/
theorem exhaustive_of_ok {work : Work × Output} {after : Output}
    (h : encoder.perform work.1 work.2 = .ok () after) : encoder.Exhaustive work := by
  obtain ⟨part, out⟩ := work
  cases part with
  | call fuel function input base => exact exhaustive_call h
  | copy fuel copy field value pos layout => exact exhaustive_copy h
  | step fuel source input base step =>
      cases step with
      | fixedScalar field value => trivial
      | fixedFill field value => trivial
      | assign field copy =>
          obtain ⟨layout, hLayout, _⟩ := Encode.lift_bind_ok.1 h
          exact ⟨_, layout, .assign hLayout⟩
      | varLen field lengthField element copy => exact exhaustive_varLen h
      | union field record discriminator arms => exact exhaustive_union h

/-- Whatever encoding into a buffer comes to succeeds, if all of it does. -/
theorem Reached.exists_ok {root : String} {value : Value} {buffer : Array UInt8} {stop : Nat}
    (hOk : (encoder.encodeInto root value buffer).1 = .ok stop) {work : Work × Output}
    (h : encoder.Reached root value buffer work) :
    ∃ after, encoder.perform work.1 work.2 = .ok () after := by
  cases hRun : encoder.perform work.1 work.2 with
  | error fault after =>
      rw [h.encodeInto_eq ⟨after, hRun⟩] at hOk
      cases hOk
  | ok _ after => exact ⟨after, rfl⟩

/-- Whatever encoding into a buffer comes to is exhaustive, if it succeeds. -/
theorem Reached.exhaustive {root : String} {value : Value} {buffer : Array UInt8} {stop : Nat}
    (hOk : (encoder.encodeInto root value buffer).1 = .ok stop) {work : Work × Output}
    (h : encoder.Reached root value buffer work) : encoder.Exhaustive work := by
  obtain ⟨after, hRun⟩ := h.exists_ok hOk
  exact exhaustive_of_ok hRun

/-- Encoding into a buffer that succeeds begins with the function of the root. -/
theorem reached_root {root : String} {value : Value} {buffer : Array UInt8} {stop : Nat}
    (hOk : (encoder.encodeInto root value buffer).1 = .ok stop) :
    ∃ fuel function out,
      encoder.Reached root value buffer (.call fuel function (some value) 0, out) := by
  unfold Encoder.encodeInto at hOk
  split at hOk
  · cases hOk
  · rename_i point needed function hPrepare
    exact ⟨_, function, _, point, needed, function, hPrepare, .refl⟩

end Encoder

/-- **Shapes are checked, except those of unions and arrays**: in every encode run of every
encoder, a value that is taken for a number or for a structure and is neither ends the run
with an error that names it.  A value that is taken for a union or for an array and is of
another shape gives what no value gives: no members, and no items.

A run that succeeds comes to the function of the root, and leaves out nothing that belongs to
what it comes to.  After it, every value has the shape that it was taken to have if, and only
if, those have it that were taken for unions and arrays. -/
theorem shapes_checked_except_containers (encoder : Encoder) (root : String) (value : Value)
    (buffer : Array UInt8) :
    (∀ reading, encoder.Consulted root value buffer reading → ¬ reading.Fits →
      (∀ expected, reading.shape.expectation? = some expected →
        (encoder.encodeInto root value buffer).1 =
          .error (.error (.typeMismatch reading.name expected))) ∧
      (reading.shape = .union → ∀ name, fieldOf reading.value name = fieldOf none name) ∧
      (reading.shape = .array → itemsOf reading.value = itemsOf none)) ∧
    ∀ stop, (encoder.encodeInto root value buffer).1 = .ok stop →
      (∃ fuel function out,
        encoder.Reached root value buffer (.call fuel function (some value) 0, out)) ∧
      (∀ work, encoder.Reached root value buffer work → encoder.Exhaustive work) ∧
      ((∀ reading, encoder.Consulted root value buffer reading → reading.Fits) ↔
        ∀ reading, encoder.Consulted root value buffer reading →
          reading.shape = .union ∨ reading.shape = .array → reading.Fits) := by
  constructor
  · intro reading hConsulted hMisfit
    obtain ⟨found, hFound, hShape⟩ := Reading.exists_of_not_fits hMisfit
    refine ⟨fun expected hChecked => Encoder.encodeInto_of_consulted hConsulted hChecked hMisfit,
      fun hUnion name => ?_, fun hArray => ?_⟩
    · rw [hUnion] at hShape
      rw [hFound]
      exact Value.field?_misfit hShape name
    · rw [hArray] at hShape
      rw [hFound]
      exact Value.items_misfit hShape
  · intro stop hOk
    refine ⟨Encoder.reached_root hOk, fun _ hReached => hReached.exhaustive hOk,
      fun hAll reading hConsulted _ => hAll reading hConsulted,
      fun hContainers reading hConsulted => ?_⟩
    by_contra hMisfit
    -- What is checked would have ended the run.
    have hReported : ∀ expected, reading.shape.expectation? = some expected → False := by
      intro expected hChecked
      rw [Encoder.encodeInto_of_consulted hConsulted hChecked hMisfit] at hOk
      cases hOk
    cases hCase : reading.shape with
    | number => exact hReported .number (by rw [hCase]; rfl)
    | record => exact hReported .record (by rw [hCase]; rfl)
    | union => exact hMisfit (hContainers reading hConsulted (.inl hCase))
    | array => exact hMisfit (hContainers reading hConsulted (.inr hCase))

namespace Sample

/-- A batch that is nothing but an array. -/
def codes : Declarations :=
  Table.ofList [("chreTestBatch", ⟨.struct, [⟨"codes", ⟨"uint8_t", .array 2⟩⟩]⟩)]

def codesProgram : Program := (compileWithin 20 codes ⟨[]⟩ {} request).getD default

def codesEncoder : Encoder :=
  ⟨codesProgram, (Layouts.ofProgram Primitives.standard codesProgram).toOption.getD Table.empty,
    Table.empty, payloadLimit⟩

def convertCodes : EncodeFunction := (codesProgram.encodeFunction? "chreTestBatch").getD default

def codesPoint : EntryPoint := (codesProgram.entryPoint? "chreTestBatch").getD default

/-- The place of the array. -/
def codesPlace : FieldLayout := ⟨0, 2, 1, 2, some .unsigned⟩

/-- Encoding a batch comes to copying its array, with the buffer as it was. -/
theorem codes_reached (given : Value) :
    ∃ fuel, codesEncoder.Reached "chreTestBatch" (.record [("codes", given)]) #[255, 255]
      (.copy fuel (.array 2) "codes" (some given) 0 codesPlace, ⟨#[255, 255], 2⟩) := by
  have hFacts : (codesEncoder.prepare "chreTestBatch" 2).toOption =
        some (codesPoint, 2, convertCodes) ∧
      convertCodes.steps = [.assign "codes" (.array 2)] ∧
      (codesEncoder.fieldLayout convertCodes.source "codes").toOption = some codesPlace := by
    decide +kernel
  obtain ⟨hPrepare, hSteps, hPlace⟩ := hFacts
  have hStart : codesEncoder.Reached "chreTestBatch" (.record [("codes", given)]) #[255, 255]
      (.call _ convertCodes (some (.record [("codes", given)])) 0, ⟨#[255, 255], 2⟩) :=
    ⟨codesPoint, 2, convertCodes, eq_ok_of_toOption hPrepare, .refl⟩
  have hFirst : convertCodes.steps = [] ++ .assign "codes" (.array 2) :: [] := hSteps
  refine ⟨_, (hStart.tail (.step rfl hFirst ?_)).tail (.assign (eq_ok_of_toOption hPlace))⟩
  rfl

/-- An array where a number belongs, as the first item of the array, is reported. -/
theorem array_for_number_reported :
    codesEncoder.Consulted "chreTestBatch" (.record [("codes", .array [.array []])]) #[255, 255]
        ⟨"codes", .number, some (.array [])⟩ ∧
      (codesEncoder.encodeInto "chreTestBatch" (.record [("codes", .array [.array []])])
          #[255, 255]).1 = .error (.error (.typeMismatch "codes" .number)) := by
  obtain ⟨fuel, hReached⟩ := codes_reached (.array [.array []])
  have hItem : codesEncoder.Consulted "chreTestBatch" (.record [("codes", .array [.array []])])
      #[255, 255] ⟨"codes", .number, some (.array [])⟩ :=
    ⟨_, hReached.tail (.scalar (by decide : 0 < 2) rfl), .number (by decide) (by decide)⟩
  have hChecked := shapes_checked_except_containers codesEncoder "chreTestBatch"
    (.record [("codes", .array [.array []])]) #[255, 255]
  exact ⟨hItem, (hChecked.1 _ hItem (by decide)).1 .number rfl⟩

/-- A number where the array belongs is taken for an array, and encoded as zeros. -/
theorem number_for_array_zeroed :
    compile codes ⟨[]⟩ {} request = .ok codesEncoder.program ∧
      codesEncoder.IsFor codesProgram Primitives.standard ∧
      codesEncoder.Consulted "chreTestBatch" (.record [("codes", .int 7)]) #[255, 255]
        ⟨"codes", .array, some (.int 7)⟩ ∧
      ¬ (⟨"codes", .array, some (.int 7)⟩ : Reading).Fits ∧
      codesEncoder.encodeInto "chreTestBatch" (.record [("codes", .int 7)]) #[255, 255] =
        (.ok 2, #[0, 0]) := by
  obtain ⟨fuel, hReached⟩ := codes_reached (.int 7)
  refine ⟨compile_getD (by decide +kernel),
    Encoder.isFor_of_layouts (eq_ok_getD (by decide +kernel)),
    ⟨_, hReached, .array (by decide)⟩, by decide, ?_⟩
  exact Prod.ext (eq_ok_of_toOption (by decide +kernel)) (by decide +kernel)

end Sample

end WireSchema
