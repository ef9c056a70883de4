import WireSchema.Encoding.Run
import WireSchema.Proofs.Outcome

/-!
# What an encode run leaves alone

A run writes to two parts of the buffer: its own place, and the payload between the
cursor it started with and the cursor it ends with.  `Frame` says that everything else
stays, and that the cursor moves forward within the part that takes payload.

`Encode.Safe` says that a run keeps its frame, however it ends, and that it ends early
only for a fault of the source value, never for want of a definition or because calls do
not end.  A write beyond the end of the buffer takes a primitive type without bytes.

## Main results

* `Frame.trans`, `Frame.mono`, `Frame.payload`: how frames are put together.
* `Encode.Safe.bind`, `Encode.safe_elements`: safety of runs made of safe runs.
* `Encode.safe_scalar`, `Encode.safe_fill`, `Encode.safe_storeDescriptor`: safety of the
  writes, given the room.
-/

namespace WireSchema

/-! ## Stored bytes -/

theorem getElem?_storeBytes (bytes : List UInt8) (buffer : Array UInt8) (pos i : Nat)
    (hRoom : pos + bytes.length ≤ buffer.size) :
    (storeBytes buffer pos bytes)[i]? =
      if pos ≤ i ∧ i < pos + bytes.length then bytes[i - pos]? else buffer[i]? := by
  induction bytes generalizing buffer pos with
  | nil =>
      rw [if_neg (by simp only [List.length_nil]; omega)]
      rfl
  | cons byte rest ih =>
      rw [List.length_cons] at hRoom
      rw [storeBytes, ih _ _ (by simp only [Array.size_setIfInBounds]; omega), List.length_cons]
      by_cases hHead : i = pos
      · subst hHead
        rw [if_neg (by omega), if_pos (by omega), Array.getElem?_setIfInBounds, if_pos rfl,
          if_pos (by omega), Nat.sub_self]
        rfl
      · by_cases hTail : pos + 1 ≤ i ∧ i < pos + 1 + rest.length
        · rw [if_pos hTail, if_pos (by omega), show i - pos = i - (pos + 1) + 1 by omega]
          rfl
        · rw [if_neg hTail, if_neg (by omega), Array.getElem?_setIfInBounds, if_neg (Ne.symm hHead)]

theorem storeBytes_append (front back : List UInt8) (buffer : Array UInt8) (pos : Nat) :
    storeBytes buffer pos (front ++ back) =
      storeBytes (storeBytes buffer pos front) (pos + front.length) back := by
  induction front generalizing buffer pos with
  | nil => rfl
  | cons byte rest ih =>
      rw [List.cons_append, storeBytes, ih, storeBytes, List.length_cons]
      congr 1
      omega

/-- A descriptor that has just been stored. -/
theorem getElem?_storeDescriptor {buffer : Array UInt8} {pos offset length : Nat}
    (hRoom : pos + descriptorSize ≤ buffer.size) {k : Nat} (hk : k < descriptorSize) :
    (storeBytes buffer pos (leBytes 2 offset ++ leBytes 2 length))[pos + k]? =
      (leBytes 2 offset ++ leBytes 2 length)[k]? := by
  have hSize : (leBytes 2 offset ++ leBytes 2 length).length = descriptorSize := by
    rw [List.length_append, leBytes_length, leBytes_length]
    rfl
  rw [getElem?_storeBytes _ _ _ _ (by omega), if_pos (by omega), Nat.add_sub_cancel_left]

/-! ## Frames -/

/-- From `before` to `after`, only the `size` bytes from `pos` on and the payload between the
cursors have changed.  The payload ends inside the buffer and below the limit, and there
is none unless `varLen`. -/
structure Frame (pos size : Nat) (varLen : Bool) (before after : Output) : Prop where
  size_eq : after.buffer.size = before.buffer.size
  cursor_le : before.cursor ≤ after.cursor
  cursor_bound : after.cursor = before.cursor ∨
    after.cursor ≤ min before.buffer.size payloadLimit
  still : varLen = false → after.cursor = before.cursor
  outside : ∀ i, i < pos ∨ pos + size ≤ i → i < before.cursor ∨ after.cursor ≤ i →
    after.buffer[i]? = before.buffer[i]?

namespace Frame

variable {pos size : Nat} {varLen : Bool} {before middle after : Output}

theorem refl (out : Output) : Frame pos size varLen out out :=
  ⟨rfl, Nat.le_refl _, .inl rfl, fun _ => rfl, fun _ _ _ => rfl⟩

theorem trans (h : Frame pos size varLen before middle) (h' : Frame pos size varLen middle after) :
    Frame pos size varLen before after where
  size_eq := h'.size_eq.trans h.size_eq
  cursor_le := Nat.le_trans h.cursor_le h'.cursor_le
  cursor_bound := by
    rcases h'.cursor_bound with hEq | hLe
    · rw [hEq]
      exact h.cursor_bound
    · rw [h.size_eq] at hLe
      exact .inr hLe
  still hFixed := (h'.still hFixed).trans (h.still hFixed)
  outside i hPlace hPayload := by
    have hFirst := h.cursor_le
    have hSecond := h'.cursor_le
    rw [h'.outside i hPlace (by omega), h.outside i hPlace (by omega)]

/-- A frame inside a larger place is a frame of that place. -/
theorem mono (h : Frame pos size varLen before after) {pos' size' : Nat} {varLen' : Bool}
    (hPos : pos' ≤ pos) (hSize : pos + size ≤ pos' + size')
    (hVarLen : varLen = true → varLen' = true) : Frame pos' size' varLen' before after where
  size_eq := h.size_eq
  cursor_le := h.cursor_le
  cursor_bound := h.cursor_bound
  still hFixed := h.still (by
    cases varLen
    · rfl
    · rw [hVarLen rfl] at hFixed
      cases hFixed)
  outside i hPlace hPayload := h.outside i (by omega) hPayload

/-- What is written into payload that has just been reserved belongs to the frame of the
array. -/
theorem payload {length : Nat}
    (hBound : before.cursor + length ≤ min before.buffer.size payloadLimit)
    (hPlace : Frame pos size false before middle)
    (hElements : Frame before.cursor length false
      { middle with cursor := middle.cursor + length } after) :
    Frame pos size true before after := by
  have hStill := hPlace.still rfl
  have hFixed := hElements.still rfl
  have hSize := hElements.size_eq
  dsimp only at hFixed hSize
  refine ⟨hSize.trans hPlace.size_eq, by omega, .inr (by omega), by simp, ?_⟩
  intro i hOther hPayload
  rw [hElements.outside i (by omega) (by dsimp only; omega)]
  exact hPlace.outside i hOther (by omega)

/-- Bytes stored in the place. -/
theorem store {bytes : List UInt8} (out : Output) (hLength : bytes.length ≤ size)
    (hRoom : pos + size ≤ out.buffer.size) :
    Frame pos size varLen out { out with buffer := storeBytes out.buffer pos bytes } where
  size_eq := size_storeBytes bytes out.buffer pos
  cursor_le := Nat.le_refl _
  cursor_bound := .inl rfl
  still _ := rfl
  outside i hPlace _ := by
    rw [getElem?_storeBytes _ _ _ _ (by omega), if_neg (by omega)]

end Frame

/-! ## Safety -/

/-- A fault that the source value or an unknown symbol causes. -/
def Fault.FromValue : Fault → Prop
  | .error (.unmappedDiscriminator ..) => True
  | .error (.unknownConstant _) => True
  | .error (.typeMismatch ..) => True
  | _ => False

/-- Every primitive type has at least one byte. -/
def Primitives.Positive (primitives : Primitives) : Prop :=
  ∀ name primitive, primitives.get? name = some primitive → 0 < primitive.size

/-- A fault of the source value, or a write to a place for a primitive type without bytes. -/
def Fault.Allowed (primitives : Primitives) (fault : Fault) : Prop :=
  fault.FromValue ∨ (fault = .outOfBounds ∧ ¬ primitives.Positive)

namespace Encode

variable {α β : Type} {primitives : Primitives}

/-- Started from `out`, the run keeps its frame, and only an allowed fault ends it early. -/
def Safe (primitives : Primitives) (m : Encode α) (pos size : Nat) (varLen : Bool)
    (out : Output) : Prop :=
  match m out with
  | .ok _ after => Frame pos size varLen out after
  | .error fault after => fault.Allowed primitives ∧ Frame pos size varLen out after

namespace Safe

variable {pos size : Nat} {varLen : Bool} {out : Output}

theorem frame_of_ok {m : Encode α} (h : Safe primitives m pos size varLen out) {a : α}
    {after : Output}
    (hRun : m out = .ok a after) : Frame pos size varLen out after := by
  unfold Safe at h
  rw [hRun] at h
  exact h

theorem of_error {m : Encode α} (h : Safe primitives m pos size varLen out) {fault : Fault}
    {after : Output} (hRun : m out = .error fault after) :
    fault.Allowed primitives ∧ Frame pos size varLen out after := by
  unfold Safe at h
  rw [hRun] at h
  exact h

theorem mono {m : Encode α} (h : Safe primitives m pos size varLen out) {pos' size' : Nat}
    {varLen' : Bool}
    (hPos : pos' ≤ pos) (hSize : pos + size ≤ pos' + size')
    (hVarLen : varLen = true → varLen' = true) : Safe primitives m pos' size' varLen' out := by
  unfold Safe at h ⊢
  split at h
  · exact h.mono hPos hSize hVarLen
  · exact ⟨h.1, h.2.mono hPos hSize hVarLen⟩

theorem pure (a : α) : Safe primitives (pure a : Encode α) pos size varLen out :=
  Frame.refl out

/-- What follows a safe run has to be safe from wherever it may start. -/
theorem bind {m : Encode α} {k : α → Encode β} (h : Safe primitives m pos size varLen out)
    (hk : ∀ a mid, m out = .ok a mid → Safe primitives (k a) pos size varLen mid) :
    Safe primitives (m >>= k) pos size varLen out := by
  show match EStateM.bind m k out with
    | .ok _ after => _
    | .error fault after => _
  unfold EStateM.bind
  cases hRun : m out with
  | ok a mid =>
      have hFirst := h.frame_of_ok hRun
      have hSecond := hk a mid hRun
      unfold Safe at hSecond
      dsimp only
      split at hSecond
      · exact hFirst.trans hSecond
      · exact ⟨hSecond.1, hFirst.trans hSecond.2⟩
  | error fault mid => exact h.of_error hRun

/-- A computation that does not touch the buffer is safe if its failures are. -/
theorem lift {x : Except Fault α} (h : ∀ fault, x = .error fault → fault.Allowed primitives) :
    Safe primitives (liftM x : Encode α) pos size varLen out := by
  cases x with
  | ok a => exact Frame.refl out
  | error fault => exact ⟨h fault rfl, Frame.refl out⟩

/-- A computation that does not touch the buffer comes first. -/
theorem lift_bind {x : Except Fault α} {k : α → Encode β}
    (h : ∀ fault, x = .error fault → fault.Allowed primitives)
    (hk : ∀ a, x = .ok a → Safe primitives (k a) pos size varLen out) :
    Safe primitives (liftM x >>= k) pos size varLen out := by
  refine bind (lift h) fun a mid hLift => ?_
  obtain ⟨hFound, rfl⟩ := lift_ok.1 hLift
  exact hk a hFound

end Safe

/-! ## Writes -/

theorem ensureRoom_eq {pos size : Nat} {out : Output} (h : pos + size ≤ out.buffer.size) :
    ensureRoom pos size out = .ok () out := by
  show (if pos + size ≤ out.buffer.size then (Pure.pure () : Encode Unit)
    else throw .outOfBounds) out = _
  rw [if_pos h]
  rfl

/-- What looked for room and went on has found it. -/
theorem room_of_ensureRoom {pos size : Nat} {out after : Output}
    (h : ensureRoom pos size out = .ok () after) : pos + size ≤ out.buffer.size ∧ out = after := by
  by_cases hRoom : pos + size ≤ out.buffer.size
  · rw [ensureRoom_eq hRoom] at h
    cases h
    exact ⟨hRoom, rfl⟩
  · have h : (if pos + size ≤ out.buffer.size then (Pure.pure () : Encode Unit)
        else throw .outOfBounds) out = .ok () after := h
    rw [if_neg hRoom] at h
    cases h

/-- Once there is room, a write only changes the buffer. -/
theorem store_eq {pos room : Nat} (bytes : List UInt8) {out : Output}
    (hRoom : pos + room ≤ out.buffer.size) :
    (do ensureRoom pos room; store pos bytes) out =
      .ok () { out with buffer := storeBytes out.buffer pos bytes } := by
  show EStateM.bind (ensureRoom pos room) (fun _ => store pos bytes) out = _
  unfold EStateM.bind
  rw [ensureRoom_eq hRoom]
  rfl

theorem fill_eq {pos size : Nat} (byte : UInt8) {out : Output}
    (hRoom : pos + size ≤ out.buffer.size) :
    fill pos size byte out =
      .ok () { out with buffer := storeBytes out.buffer pos (List.replicate size byte) } :=
  store_eq _ hRoom

theorem storeDescriptor_eq {pos : Nat} (offset length : Nat) {out : Output}
    (hRoom : pos + descriptorSize ≤ out.buffer.size) :
    storeDescriptor pos offset length out =
      .ok () { out with
        buffer := storeBytes out.buffer pos (leBytes 2 offset ++ leBytes 2 length) } := by
  have hSize : descriptorSize = 4 := rfl
  show EStateM.bind (storeUInt16 pos offset) (fun _ => storeUInt16 (pos + 2) length) out = _
  unfold EStateM.bind storeUInt16
  rw [store_eq _ (by omega)]
  dsimp only
  rw [store_eq _ (by rw [size_storeBytes]; omega), storeBytes_append, leBytes_length]

/-- A descriptor that is stored has its place in the buffer. -/
theorem room_of_storeDescriptor {pos offset length : Nat} {out after : Output}
    (h : storeDescriptor pos offset length out = .ok () after) :
    pos + descriptorSize ≤ out.buffer.size := by
  obtain ⟨_, mid, hFirst, hSecond⟩ := bind_ok.1 h
  obtain ⟨_, same, hRoom, hStore⟩ := bind_ok.1 hFirst
  obtain ⟨_, rfl⟩ := room_of_ensureRoom hRoom
  obtain ⟨_, same, hRoom, _⟩ := bind_ok.1 hSecond
  obtain ⟨hBehind, rfl⟩ := room_of_ensureRoom hRoom
  cases hStore
  rw [size_storeBytes] at hBehind
  exact hBehind

theorem advance_bind {α : Type} {f : Unit → Encode α} {length : Nat} {out : Output} :
    (advance length >>= f) out = f () { out with cursor := out.cursor + length } :=
  rfl

theorem length_scalarBytes {size : Nat} {slot : Option ScalarClass} {value : Option Value}
    {field : String} {bytes : List UInt8} (h : scalarBytes size slot value field = .ok bytes) :
    bytes.length ≤ size := by
  unfold scalarBytes at h
  split at h
  · cases h
  · obtain ⟨x, _, h⟩ := bind_eq_ok.1 h
    split at h
    · obtain rfl := pure_eq_ok.1 h
      simp only [leBytes_length]
      omega
    · split at h
      · obtain rfl := pure_eq_ok.1 h
        simp only [leBytes_length]
        omega
      · cases h
  · obtain ⟨n, _, h⟩ := bind_eq_ok.1 h
    split at h
    · cases h
    · obtain rfl := pure_eq_ok.1 h
      simp only [List.length_cons, List.length_replicate]
      omega
  · obtain ⟨n, _, h⟩ := bind_eq_ok.1 h
    obtain rfl := pure_eq_ok.1 h
    simp only [leBytes_length]
    omega
  · obtain ⟨n, _, h⟩ := bind_eq_ok.1 h
    obtain rfl := pure_eq_ok.1 h
    simp only [leBytes_length]
    omega

/-- A scalar that is written has bytes, which stand in its place. -/
theorem scalar_ok {pos size : Nat} {slot : Option ScalarClass} {value : Option Value}
    {field : String} {out after : Output} (hRoom : pos + size ≤ out.buffer.size) :
    scalar pos size slot value field out = .ok () after ↔
      ∃ bytes, scalarBytes size slot value field = .ok bytes ∧
        after = { out with buffer := storeBytes out.buffer pos bytes } := by
  show EStateM.bind (ensureRoom pos size)
    (fun _ => liftM (scalarBytes size slot value field) >>= store pos) out = _ ↔ _
  unfold EStateM.bind
  rw [ensureRoom_eq hRoom]
  dsimp only
  rw [lift_bind_ok]
  constructor
  · rintro ⟨bytes, hBytes, hStore⟩
    cases hStore
    exact ⟨bytes, hBytes, rfl⟩
  · rintro ⟨bytes, hBytes, rfl⟩
    exact ⟨bytes, hBytes, rfl⟩

/-! ## Safe writes -/

theorem safe_fill {pos size : Nat} {varLen : Bool} (byte : UInt8) {out : Output}
    (hRoom : pos + size ≤ out.buffer.size) :
    Safe primitives (fill pos size byte) pos size varLen out := by
  unfold Safe
  rw [fill_eq byte hRoom]
  exact Frame.store out (by simp) hRoom

theorem frame_descriptor {pos : Nat} {varLen : Bool} (offset length : Nat) {out : Output}
    (hRoom : pos + descriptorSize ≤ out.buffer.size) :
    Frame pos descriptorSize varLen out { out with
      buffer := storeBytes out.buffer pos (leBytes 2 offset ++ leBytes 2 length) } := by
  refine Frame.store out (Nat.le_of_eq ?_) hRoom
  rw [List.length_append, leBytes_length, leBytes_length]
  rfl

theorem safe_storeDescriptor {pos : Nat} {varLen : Bool} (offset length : Nat) {out : Output}
    (hRoom : pos + descriptorSize ≤ out.buffer.size) :
    Safe primitives (storeDescriptor pos offset length) pos descriptorSize varLen out := by
  unfold Safe
  rw [storeDescriptor_eq offset length hRoom]
  exact frame_descriptor offset length hRoom

theorem fromValue_of_integerOf {value : Option Value} {field : String} {fault : Fault}
    (h : integerOf value field = .error fault) : fault.FromValue := by
  unfold integerOf at h
  split at h
  · cases h
  · split at h
    · cases h
    · cases h
      trivial

/-- What is no number is a fault of the value; a number fails only where there is no byte. -/
theorem allowed_of_scalarBytes {size : Nat} {slot : Option ScalarClass} {value : Option Value}
    {field : String} {fault : Fault} (hSize : slot ≠ none → 0 < size ∨ ¬ primitives.Positive)
    (h : scalarBytes size slot value field = .error fault) : fault.Allowed primitives := by
  unfold scalarBytes at h
  split at h
  · cases h
    exact .inl trivial
  · rcases bind_eq_error.1 h with hFloat | ⟨x, _, h⟩
    · unfold floatOf at hFloat
      split at hFloat
      · cases hFloat
      · split at hFloat
        · cases hFloat
        · cases hFloat
          exact .inl trivial
    · split at h
      · cases h
      · split at h
        · cases h
        · cases h
          exact .inl trivial
  · rcases bind_eq_error.1 h with hInteger | ⟨n, _, h⟩
    · exact .inl (fromValue_of_integerOf hInteger)
    · split at h
      · rename_i hZero
        cases h
        exact .inr ⟨rfl, (hSize (by simp)).resolve_left (by omega)⟩
      · cases h
  · rcases bind_eq_error.1 h with hInteger | ⟨n, _, h⟩
    · exact .inl (fromValue_of_integerOf hInteger)
    · cases h
  · rcases bind_eq_error.1 h with hInteger | ⟨n, _, h⟩
    · exact .inl (fromValue_of_integerOf hInteger)
    · cases h

theorem safe_scalar {pos size : Nat} {varLen : Bool} {slot : Option ScalarClass}
    {value : Option Value} {field : String} {out : Output}
    (hSize : slot ≠ none → 0 < size ∨ ¬ primitives.Positive)
    (hRoom : pos + size ≤ out.buffer.size) :
    Safe primitives (scalar pos size slot value field) pos size varLen out := by
  unfold scalar
  refine Safe.bind ?_ fun _ mid hEnsured => ?_
  · unfold Safe
    rw [ensureRoom_eq hRoom]
    exact Frame.refl out
  · rw [ensureRoom_eq hRoom] at hEnsured
    cases hEnsured
    refine Safe.lift_bind (fun fault => allowed_of_scalarBytes hSize) fun bytes hBytes => ?_
    exact Frame.store out (length_scalarBytes hBytes) hRoom

/-- Elements that are safe in their places make a safe array. -/
theorem safe_elements {element : Option Value → Nat → Encode Unit} {size : Nat} {varLen : Bool}
    {room : Nat}
    (h : ∀ item pos out, pos + size ≤ out.buffer.size → out.buffer.size = room →
      Safe primitives (element item pos) pos size varLen out)
    (count : Nat) (items : List Value) (pos : Nat) (out : Output)
    (hRoom : pos + size * count ≤ out.buffer.size) (hSize : out.buffer.size = room) :
    Safe primitives (elements element size count items pos) pos (size * count) varLen out := by
  induction count generalizing items pos out with
  | zero => exact Safe.pure ()
  | succ count ih =>
      rw [Nat.mul_succ] at hRoom ⊢
      have hHead := h items.head? pos out (by omega) hSize
      refine Safe.bind (hHead.mono (Nat.le_refl _) (by omega) id) fun _ mid hRun => ?_
      have hSame := (hHead.frame_of_ok hRun).size_eq
      exact (ih items.tail (pos + size) mid (by omega) (by omega)).mono (by omega) (by omega) id

end Encode

end WireSchema
