import Mathlib.Logic.Relation
import WireSchema.Proofs.EncodeSafety

/-!
# The parts of a run

A run is taken apart into the work it begins: a function begins its steps, a step the copying
of values, and copying a record the function of its type.  Work that comes later begins in the
state that the work before it has left, so `Encoder.Begins` relates work together with states.
What ends a part of a run early ends the whole run, in the same way.

## Main definitions

* `Encode.Throws`: a run that ends with a fault.
* `Work`, `Encoder.Begins`: the parts of a run.

## Main results

* `Encoder.throws_of_begins`, `Encoder.throws_of_parts`: a fault in a part of a run is one of
  the run.
-/

namespace WireSchema

/-! ## Faults -/

namespace Encode

variable {α β : Type}

/-- The run from `out` ends with the fault. -/
def Throws (m : Encode α) (out : Output) (fault : Fault) : Prop :=
  ∃ after, m out = .error fault after

namespace Throws

variable {out mid : Output} {fault : Fault}

theorem throw (fault : Fault) (out : Output) : (throw fault : Encode α).Throws out fault :=
  ⟨out, rfl⟩

theorem bind {m : Encode α} {k : α → Encode β} (h : m.Throws out fault) :
    (m >>= k).Throws out fault := by
  obtain ⟨after, hRun⟩ := h
  exact ⟨after, bind_error.2 (.inl hRun)⟩

theorem bind_of_ok {m : Encode α} {k : α → Encode β} {a : α} (hFirst : m out = .ok a mid)
    (h : (k a).Throws mid fault) : (m >>= k).Throws out fault := by
  obtain ⟨after, hRun⟩ := h
  exact ⟨after, bind_error.2 (.inr ⟨a, mid, hFirst, hRun⟩)⟩

theorem lift_bind {x : Except Fault α} {k : α → Encode β} (h : x = .error fault) :
    Throws (liftM x >>= k) out fault := by
  rw [h]
  exact (throw fault out).bind

theorem lift_bind_of_ok {x : Except Fault α} {k : α → Encode β} {a : α} (hFirst : x = .ok a)
    (h : (k a).Throws out fault) : Throws (liftM x >>= k) out fault :=
  bind_of_ok (lift_ok.2 ⟨hFirst, rfl⟩) h

/-- A fault in the middle of a sequence ends all of it. -/
theorem forM {γ : Type} {f : γ → Encode Unit} {done rest : List γ} {x : γ}
    (hDone : done.forM f out = .ok () mid) (h : (f x).Throws mid fault) :
    ((done ++ x :: rest).forM f).Throws out fault := by
  induction done generalizing out with
  | nil =>
      cases hDone
      exact h.bind
  | cons first done ih =>
      obtain ⟨_, next, hFirst, hDone⟩ := bind_ok.1 hDone
      exact bind_of_ok hFirst (ih hDone)

/-- A fault at one of the elements ends the copying of all. -/
theorem elements {element : Option Value → Nat → Encode Unit} {size i count : Nat}
    {items : List Value} {pos : Nat} (hi : i < count)
    (hDone : elements element size i items pos out = .ok () mid)
    (h : (element items[i]? (pos + size * i)).Throws mid fault) :
    (Encode.elements element size count items pos).Throws out fault := by
  induction i generalizing count items pos out with
  | zero =>
      obtain ⟨count, rfl⟩ : ∃ k, count = k + 1 := ⟨count - 1, by omega⟩
      cases hDone
      rw [Encode.elements, List.head?_eq_getElem?]
      exact h.bind
  | succ i ih =>
      obtain ⟨count, rfl⟩ : ∃ k, count = k + 1 := ⟨count - 1, by omega⟩
      obtain ⟨_, next, hFirst, hDone⟩ := bind_ok.1 hDone
      have hPos : pos + size * (i + 1) = pos + size + size * i := by
        rw [Nat.mul_succ]
        omega
      rw [hPos, ← List.getElem?_tail] at h
      exact bind_of_ok hFirst (ih (by omega) hDone h)

end Throws

/-- A sequence that comes to its end has come to any point in it. -/
theorem exists_of_forM_ok {γ : Type} {f : γ → Encode Unit} {done rest : List γ}
    {out after : Output} (h : (done ++ rest).forM f out = .ok () after) :
    ∃ mid, done.forM f out = .ok () mid := by
  induction done generalizing out with
  | nil => exact ⟨out, rfl⟩
  | cons first done ih =>
      obtain ⟨_, next, hFirst, hRest⟩ := bind_ok.1 h
      obtain ⟨mid, hDone⟩ := ih hRest
      exact ⟨mid, bind_ok.2 ⟨_, next, hFirst, hDone⟩⟩

/-- Copying that comes to its end has come to each of the elements. -/
theorem exists_of_elements_ok {element : Option Value → Nat → Encode Unit} {size i count : Nat}
    {items : List Value} {pos : Nat} {out after : Output}
    (h : elements element size count items pos out = .ok () after) (hi : i < count) :
    ∃ mid, elements element size i items pos out = .ok () mid := by
  induction i generalizing count items pos out with
  | zero => exact ⟨out, rfl⟩
  | succ i ih =>
      obtain ⟨count, rfl⟩ : ∃ k, count = k + 1 := ⟨count - 1, by omega⟩
      obtain ⟨_, next, hFirst, hRest⟩ := bind_ok.1 h
      obtain ⟨mid, hDone⟩ := ih hRest (by omega)
      exact ⟨mid, bind_ok.2 ⟨_, next, hFirst, hDone⟩⟩

end Encode

/-! ## The parts of a run -/

/-- A part of an encode run, with at most `fuel` calls in a chain below it. -/
inductive Work where
  /-- Encodes a record. -/
  | call (fuel : Nat) (function : EncodeFunction) (input : Option Value) (base : Nat)
  /-- Takes a step of encoding a record. -/
  | step (fuel : Nat) (source : String) (input : Option Value) (base : Nat) (step : Step)
  /-- Copies a value to its place. -/
  | copy (fuel : Nat) (copy : Copy) (field : String) (value : Option Value) (pos : Nat)
      (layout : FieldLayout)

namespace Encoder

/-- Does the work. -/
def perform (encoder : Encoder) : Work → Encode Unit
  | .call fuel function input base => encoder.run fuel function input base
  | .step fuel source input base step => encoder.step (encoder.run fuel) source input base step
  | .copy fuel copy field value pos layout =>
    encoder.assign (encoder.run fuel) copy field value pos layout

/-- Work that is done from a state begins other work in a later state. -/
inductive Begins (encoder : Encoder) : Work × Output → Work × Output → Prop
  | step {fuel base : Nat} {function : EncodeFunction} {input : Option Value} {out mid : Output}
      {done rest : List Step} {step : Step} :
      input.all Value.isRecord = true → function.steps = done ++ step :: rest →
      done.forM (encoder.step (encoder.run fuel) function.source input base) out = .ok () mid →
      Begins encoder (.call (fuel + 1) function input base, out)
        (.step fuel function.source input base step, mid)
  | assign {fuel base : Nat} {source field : String} {input : Option Value} {copy : Copy}
      {layout : FieldLayout} {out : Output} :
      encoder.fieldLayout source field = .ok layout →
      Begins encoder (.step fuel source input base (.assign field copy), out)
        (.copy fuel copy field (fieldOf input field) (base + layout.offset) layout, out)
  | element {fuel base count length i : Nat} {source field lengthField : String}
      {input : Option Value} {element : Representation} {copy : Copy} {layout : FieldLayout}
      {out mid : Output} :
      encoder.fieldLayout source field = .ok layout → lengthOf input lengthField = .ok count →
      reservation? count layout.elementSize out.cursor out.buffer.size = some length →
      base + layout.offset + descriptorSize ≤ out.buffer.size → i < count →
      encoder.elementCopies (encoder.run fuel) field i copy (fieldOf input field) out.cursor layout
        (out.reserve (base + layout.offset) length) = .ok () mid →
      Begins encoder (.step fuel source input base (.varLen field lengthField element copy), out)
        (.copy fuel copy field (itemsOf (fieldOf input field))[i]?
          (out.cursor + layout.elementSize * i) layout.element, mid)
  | arm {fuel base : Nat} {source field discriminator : String} {input : Option Value}
      {record : RecordRef} {arms : List UnionArm} {layout variant : FieldLayout}
      {selector : Int64} {arm : UnionArm} {out zeroed : Output} :
      encoder.fieldLayout source field = .ok layout →
      Encode.fill (base + layout.offset) layout.size 0 out = .ok () zeroed →
      integerOf (fieldOf input discriminator) discriminator = .ok selector →
      encoder.selectArm field selector arms = .ok arm →
      encoder.fieldLayout record.source arm.member = .ok variant →
      Begins encoder (.step fuel source input base (.union field record discriminator arms), out)
        (.copy fuel arm.copy arm.member (fieldOf (fieldOf input field) arm.member)
          (base + layout.offset + variant.offset) variant, zeroed)
  | scalar {fuel pos length i : Nat} {field : String} {value : Option Value}
      {layout : FieldLayout} {out mid : Output} :
      i < length →
      Encode.elements
        (fun item pos => Encode.scalar pos layout.elementSize layout.scalar item field)
        layout.elementSize i (itemsOf value) pos out = .ok () mid →
      Begins encoder (.copy fuel (.array length) field value pos layout, out)
        (.copy fuel .scalar field (itemsOf value)[i]? (pos + layout.elementSize * i) layout, mid)
  | record {fuel pos : Nat} {source name field : String} {varLen : Bool} {value : Option Value}
      {layout : FieldLayout} {callee : EncodeFunction} {out : Output} :
      encoder.encodeFunction source = .ok callee →
      Begins encoder (.copy fuel (.record source name varLen) field value pos layout, out)
        (.call fuel callee value pos, out)
  | recordElement {fuel pos length i : Nat} {source name field : String} {value : Option Value}
      {layout : FieldLayout} {callee : EncodeFunction} {out mid : Output} :
      encoder.encodeFunction source = .ok callee → i < length →
      Encode.elements (encoder.run fuel callee) layout.elementSize i (itemsOf value) pos out =
        .ok () mid →
      Begins encoder (.copy fuel (.recordArray source name length) field value pos layout, out)
        (.call fuel callee (itemsOf value)[i]? (pos + layout.elementSize * i), mid)

variable {encoder : Encoder}

/-- **One part of a run**: a fault in work that is begun is one in the work that begins it. -/
theorem throws_of_begins {work next : Work × Output} (h : encoder.Begins work next) {fault : Fault}
    (hNext : (encoder.perform next.1).Throws next.2 fault) :
    (encoder.perform work.1).Throws work.2 fault := by
  cases h with
  | step hRecord hSplit hDone =>
      show Encode.Throws (if _ then _ else _) _ fault
      rw [if_pos hRecord, hSplit]
      exact .forM hDone hNext
  | assign hLayout => exact .lift_bind_of_ok hLayout hNext
  | element hLayout hCount hReserve hRoom hi hDone =>
      refine .lift_bind_of_ok hLayout (.lift_bind_of_ok hCount ?_)
      unfold Encode.Throws
      rw [varLen_of_some hReserve hRoom]
      exact Encode.Throws.elements hi hDone hNext
  | arm hLayout hFill hSelector hArm hVariant =>
      refine .lift_bind_of_ok hLayout (.bind_of_ok hFill ?_)
      exact .lift_bind_of_ok hSelector (.lift_bind_of_ok hArm (.lift_bind_of_ok hVariant hNext))
  | scalar hi hDone => exact .elements hi hDone hNext
  | record hCallee => exact .lift_bind_of_ok hCallee hNext
  | recordElement hCallee hi hDone => exact .lift_bind_of_ok hCallee (.elements hi hDone hNext)

/-- **All parts of a run**: what ends one of them ends the run. -/
theorem throws_of_parts {work part : Work × Output}
    (h : Relation.ReflTransGen encoder.Begins work part) {fault : Fault}
    (hPart : (encoder.perform part.1).Throws part.2 fault) :
    (encoder.perform work.1).Throws work.2 fault := by
  induction h with
  | refl => exact hPart
  | tail _ hBegins ih => exact ih (throws_of_begins hBegins hPart)

end Encoder

end WireSchema
