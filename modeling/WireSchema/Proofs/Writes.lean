import WireSchema.Proofs.EncodeSafety
import WireSchema.Proofs.ScalarEncoding

/-!
# Runs that write an image

`Encode.Writes` says what a successful run leaves in the buffer: the image of a piece, its
bytes in the place of the run and its payload where the cursor was.  Only what the run
itself leaves is said, so that one run can follow another: the frame of the second keeps
what the first has written.

The cursor stops at the limit, but the image does not know of the limit.  `next` is where
payload would go without it, and the cursor is the lesser of the two.

## Main results

* `Encode.Writes.append`: runs one after another write pieces one after another.
* `Encode.Writes.padded`: a place that is zeroed first.
* `Encode.writes_elements`: arrays.
* `Encode.writes_scalar`, `Encode.writes_fill`: single writes.
-/

namespace WireSchema

/-- After a run, the image is in the buffer: its place at `pos`, and its payload at `next`. -/
structure Image.Written (image : Image) (pos size next : Nat) (after : Output) : Prop where
  length_eq : image.place.length = size
  place : ∀ i < size, after.buffer[pos + i]? = image.place[i]?
  payload : ∀ i < image.payload.length, after.buffer[next + i]? = image.payload[i]?
  fits : image.payload = [] ∨ next + image.payload.length ≤ payloadLimit
  cursor_eq : after.cursor = min (next + image.payload.length) payloadLimit

/-- An image stays through a run behind it. -/
theorem Image.Written.frame {image : Image} {pos size next pos' size' : Nat} {varLen : Bool}
    {middle after : Output} (h : image.Written pos size next middle)
    (hFrame : Frame pos' size' varLen middle after) (hPos : pos + size ≤ pos')
    (hNext : pos' + size' ≤ next) :
    (∀ i < size, after.buffer[pos + i]? = image.place[i]?) ∧
      ∀ i < image.payload.length, after.buffer[next + i]? = image.payload[i]? := by
  have hCursor := h.cursor_eq
  have hLe := hFrame.cursor_le
  refine ⟨fun i hi => ?_, fun i hi => ?_⟩
  · rw [← h.place i hi]
    refine hFrame.outside _ (by omega) ?_
    by_cases hLimit : payloadLimit ≤ middle.cursor
    · have hFull := hFrame.cursor_bound
      omega
    · omega
  · rw [← h.payload i hi]
    refine hFrame.outside _ (by omega) (.inl ?_)
    rcases h.fits with hEmpty | hFits
    · rw [hEmpty] at hi
      cases hi
    · omega

/-- No payload has been written if the cursor still stands where it would go. -/
theorem Image.Written.payload_eq_nil {image : Image} {pos size next : Nat} {after : Output}
    (h : image.Written pos size next after) (hStill : after.cursor = next) :
    image.payload = [] := by
  have hCursor := h.cursor_eq
  rcases h.fits with hEmpty | hFits
  · exact hEmpty
  · exact List.eq_nil_of_length_eq_zero (by omega)

/-- What has been written without payload is the payload of a descriptor that refers to it. -/
theorem Image.Written.described {image : Image} {pos next length : Nat} {after : Output}
    (h : image.Written next length (next + length) after) (hEmpty : image.payload = [])
    (hLimit : next + length ≤ payloadLimit)
    (hDescriptor : ∀ i < descriptorSize,
      after.buffer[pos + i]? = (littleEndian 2 next ++ littleEndian 2 length)[i]?) :
    (Image.mk (littleEndian 2 next ++ littleEndian 2 length)
      (image.place ++ image.payload)).Written pos descriptorSize next after := by
  have hLength := h.length_eq
  have hCursor := h.cursor_eq
  rw [hEmpty, List.append_nil]
  rw [hEmpty, List.length_nil, Nat.add_zero] at hCursor
  refine ⟨?_, hDescriptor, fun i hi => h.place i (hLength ▸ hi), ?_, ?_⟩
  · rw [List.length_append, length_littleEndian, length_littleEndian]
    rfl
  · dsimp only
    exact .inr (by omega)
  · dsimp only
    rw [hCursor, hLength]

namespace Encode

/-- Started from `out`, a run that succeeds writes the piece in `size` bytes from `pos` on,
if payload goes behind them. -/
def Writes (m : Encode Unit) (piece : Piece) (pos size : Nat) (out : Output) : Prop :=
  ∀ after next, m out = .ok () after → out.cursor = min next payloadLimit → pos + size ≤ next →
    Frame pos size true out after ∧
      ∃ image, piece next = some image ∧ image.Written pos size next after

variable {pos size : Nat} {out : Output}

/-- One run after another. -/
theorem Writes.append {m : Encode Unit} {k : Unit → Encode Unit} {first second : Piece} {more : Nat}
    (h : Writes m first pos size out)
    (hk : ∀ mid, mid.buffer.size = out.buffer.size → Writes (k ()) second (pos + size) more mid) :
    Writes (m >>= k) (first.append second) pos (size + more) out := by
  intro after next hRun hCursor hNext
  obtain ⟨_, mid, hFirst, hSecond⟩ := bind_ok.1 hRun
  obtain ⟨hFrame, image, hImage, hWritten⟩ := h mid next hFirst hCursor (by omega)
  have hMid := hWritten.cursor_eq
  obtain ⟨hFrame', image', hImage', hWritten'⟩ :=
    hk mid hFrame.size_eq after (next + image.payload.length) hSecond hMid (by omega)
  refine ⟨(hFrame.mono (Nat.le_refl _) (by omega) id).trans (hFrame'.mono (by omega) (by omega) id),
    ⟨image.place ++ image'.place, image.payload ++ image'.payload⟩, ?_, ?_⟩
  · show (first next).bind _ = _
    rw [hImage]
    show (second (next + image.payload.length)).bind _ = _
    rw [hImage']
    rfl
  obtain ⟨hPlace, hPayload⟩ := hWritten.frame hFrame' (Nat.le_refl _) (by omega)
  have hLength := hWritten.length_eq
  refine ⟨?_, fun i hi => ?_, fun i hi => ?_, ?_, ?_⟩
  · rw [List.length_append, hLength, hWritten'.length_eq]
  · rw [List.getElem?_append, hLength]
    split
    · exact hPlace i ‹_›
    · rw [← hWritten'.place (i - size) (by omega)]
      congr 1
      omega
  · rw [List.length_append] at hi
    rw [List.getElem?_append]
    split
    · exact hPayload i ‹_›
    · rw [← hWritten'.payload (i - image.payload.length) (by omega)]
      congr 1
      omega
  · have hFits := hWritten.fits
    rcases hWritten'.fits with hEmpty | hFits'
    · rw [hEmpty, List.append_nil]
      exact hFits
    · rw [List.length_append]
      exact .inr (by omega)
  · rw [hWritten'.cursor_eq, List.length_append, Nat.add_assoc]

theorem Writes.pure : Writes (pure ()) (.bytes (some [])) pos 0 out := by
  intro after next hRun hCursor _
  cases hRun
  exact ⟨Frame.refl out, _, rfl, rfl, fun i hi => absurd hi (Nat.not_lt_zero i),
    fun i hi => absurd hi (Nat.not_lt_zero i), .inl rfl, hCursor⟩

/-- A run that only stores bytes in its place. -/
theorem Writes.of_store {m : Encode Unit} {bytes : List UInt8} {found : Option (List UInt8)}
    (hRoom : pos + size ≤ out.buffer.size) (hFound : found = some bytes)
    (hLength : bytes.length = size)
    (hRun : ∀ after, m out = .ok () after →
      after = { out with buffer := storeBytes out.buffer pos bytes }) :
    Writes m (.bytes found) pos size out := by
  intro after next hOk hCursor hNext
  obtain rfl := hRun after hOk
  refine ⟨Frame.store out (Nat.le_of_eq hLength) hRoom, ⟨bytes, []⟩, by rw [hFound]; rfl, hLength,
    fun i hi => ?_, fun i hi => absurd hi (Nat.not_lt_zero i), .inl rfl, hCursor⟩
  rw [getElem?_storeBytes _ _ _ _ (by omega), if_pos (by omega), Nat.add_sub_cancel_left]

/-- A computation that does not touch the buffer comes first. -/
theorem Writes.lift {α : Type} {x : Except Fault α} {k : α → Encode Unit} {piece : Piece}
    (h : ∀ a, x = .ok a → Writes (k a) piece pos size out) :
    Writes (liftM x >>= k) piece pos size out := by
  intro after next hRun
  obtain ⟨a, hOk, hRest⟩ := lift_bind_ok.1 hRun
  exact h a hOk after next hRest

/-- Only a run that succeeds has to write anything. -/
theorem Writes.of_ok {m : Encode Unit} {piece : Piece}
    (h : ∀ after, m out = .ok () after → Writes m piece pos size out) :
    Writes m piece pos size out :=
  fun after next hRun => h after hRun after next hRun

/-- What is written into a place of zeros is padded with them. -/
theorem Writes.padded {m : Encode Unit} {piece : Piece} {less : Nat}
    (hRoom : pos + size ≤ out.buffer.size) (hLe : less ≤ size)
    (h : Writes m piece pos less { out with
      buffer := storeBytes out.buffer pos (List.replicate size 0) }) :
    Writes (do fill pos size 0; m) (piece.padded size) pos size out := by
  intro after next hRun hCursor hNext
  obtain ⟨_, zeroed, hFill, hRest⟩ := bind_ok.1 hRun
  rw [fill_eq 0 hRoom] at hFill
  obtain rfl := (EStateM.Result.ok.inj hFill).2
  obtain ⟨hFrame, image, hImage, hWritten⟩ := h after next hRest hCursor (by omega)
  have hFilled : Frame pos size true out
      { out with buffer := storeBytes out.buffer pos (List.replicate size 0) } :=
    Frame.store out (by simp) hRoom
  refine ⟨hFilled.trans (hFrame.mono (Nat.le_refl _) (by omega) id),
    ⟨image.place ++ List.replicate (size - image.place.length) 0, image.payload⟩, ?_, ?_⟩
  · unfold Piece.padded
    rw [hImage]
    rfl
  have hLength := hWritten.length_eq
  refine ⟨?_, fun i hi => ?_, hWritten.payload, hWritten.fits, hWritten.cursor_eq⟩
  · rw [List.length_append, List.length_replicate]
    omega
  · rw [List.getElem?_append]
    split
    · exact hWritten.place i (by omega)
    · -- Behind what is written, the zeros are still there.
      have hBound := hFrame.cursor_bound
      have hCursorLe := hFrame.cursor_le
      dsimp only at hBound hCursorLe
      rw [size_storeBytes] at hBound
      rw [hFrame.outside (pos + i) (by omega) (by dsimp only; omega)]
      dsimp only
      rw [getElem?_storeBytes _ _ _ _ (by simpa using hRoom), if_pos (by simp; omega),
        Nat.add_sub_cancel_left, List.getElem?_replicate, if_pos hi, List.getElem?_replicate,
        if_pos (by omega)]

theorem writes_fill (byte : UInt8) (hRoom : pos + size ≤ out.buffer.size) :
    Writes (fill pos size byte) (.bytes (some (List.replicate size byte))) pos size out := by
  refine Writes.of_store hRoom rfl (by simp) fun after hOk => ?_
  rw [fill_eq byte hRoom] at hOk
  exact (EStateM.Result.ok.inj hOk).2.symm

/-- A scalar of a word-sized type. -/
theorem writes_scalar {primitive : Primitive} {value : Option Value} {field : String}
    (hWord : primitive.scalar = .unsigned ∨ primitive.scalar = .signed → primitive.size ≤ 8)
    (hRoom : pos + primitive.size ≤ out.buffer.size) :
    Writes (Encode.scalar pos primitive.size (some primitive.scalar) value field)
      (.bytes (Reference.scalarBytes? primitive value)) pos primitive.size out := by
  intro after next hRun
  obtain ⟨bytes, hBytes, rfl⟩ := (scalar_ok hRoom).1 hRun
  obtain ⟨hFound, hLength⟩ := scalarBytes_ok hWord hBytes
  exact Writes.of_store hRoom hFound hLength
    (fun other hOther => (EStateM.Result.ok.inj (hRun.symm.trans hOther)).2.symm) _ next hRun

/-- Elements that write their pieces make an array that writes them one after another. -/
theorem writes_elements {element : Option Value → Nat → Encode Unit} {piece : Option Value → Piece}
    {room : Nat}
    (h : ∀ item pos out, pos + size ≤ out.buffer.size → out.buffer.size = room →
      Writes (element item pos) (piece item) pos size out)
    (count : Nat) (items : List Value) (pos : Nat) (out : Output)
    (hRoom : pos + size * count ≤ out.buffer.size) (hSize : out.buffer.size = room) :
    Writes (elements element size count items pos) (.repeated count piece items) pos (size * count)
      out := by
  induction count generalizing items pos out with
  | zero => exact Writes.pure
  | succ count ih =>
      rw [Nat.mul_succ] at hRoom
      rw [Nat.mul_succ, Nat.add_comm (size * count)]
      have hHead := h items.head? pos out (by omega) hSize
      have hPiece : Piece.repeated (count + 1) piece items =
          (piece items.head?).append (.repeated count piece items.tail) := by
        unfold Piece.repeated
        rw [List.range_succ_eq_map, List.map_cons, List.map_map, List.head?_eq_getElem?]
        refine congrArg (fun rest => Piece.append _ (Piece.concat rest)) ?_
        exact List.map_congr_left fun i _ => congrArg piece List.getElem?_tail.symm
      rw [hPiece]
      refine hHead.append fun mid hSame => ?_
      exact ih items.tail (pos + size) mid (by omega) (by omega)

end Encode

end WireSchema
