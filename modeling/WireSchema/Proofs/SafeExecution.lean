import WireSchema.Proofs.EncodedSize

/-!
# Compiled programs can be run

Sizing and encoding with an encoder of a compiled program end with a result or with an
error that is meant for the caller.  They never write beyond the end of the buffer, never
ask for a definition that the program lacks, and always end.  What they write lies below
the greater of the packed size and the cursor.

## Main results

* `Encoder.encodeInto_cases`: the ways in which encoding into a buffer can end.
* `Deployed.run_of_encodeInto`: the run behind a root that was encoded.
* `compiled_program_safe`: compiled programs can be run.
-/

namespace WireSchema

/-- A fault that is an error for the caller, and not one of the program. -/
def Fault.Reported : Fault → Prop
  | .error (.missingDefinition _) => False
  | .error _ => True
  | .outOfBounds => False
  | .endless => False

theorem Fault.FromValue.reported {fault : Fault} (h : fault.FromValue) : fault.Reported := by
  cases fault with
  | error cause => cases cause <;> first | exact h | trivial
  | outOfBounds => exact h
  | endless => exact h

theorem Fault.Allowed.fromValue {primitives : Primitives} {fault : Fault}
    (h : fault.Allowed primitives) (hPositive : primitives.Positive) : fault.FromValue :=
  h.resolve_right fun hBare => hBare.2 hPositive

namespace Encoder

variable {encoder : Encoder} {root : String} {value : Value} {buffer : Array UInt8}

/-- The output as encoding into a buffer leaves it, also after a fault, and the size of the
packed type. -/
def lastOutput (encoder : Encoder) (root : String) (value : Value) (buffer : Array UInt8) :
    Except Fault (Nat × Output) := do
  let (_, needed, function) ← encoder.prepare root buffer.size
  match encoder.run (encoder.callLimit value buffer.size) function (some value) 0
      ⟨buffer, min needed payloadLimit⟩ with
  | .ok _ out => return (needed, out)
  | .error _ out => return (needed, out)

theorem entryPoint_eq_ok {point : EntryPoint} :
    encoder.entryPoint root = .ok point ↔ encoder.program.entryPoint? root = some point := by
  unfold Encoder.entryPoint
  split <;> simp_all

theorem entryPoint_error {fault : Fault} (h : encoder.entryPoint root = .error fault) :
    fault = .error (.unknownRoot root) := by
  unfold Encoder.entryPoint at h
  split at h
  · cases h
  · exact (Except.error.inj h).symm

theorem encodedSize_of_static {point : EntryPoint}
    (hPoint : encoder.program.entryPoint? root = some point) (hStatic : point.size = .static) :
    encoder.encodedSize root value = encoder.staticSize point.source := by
  simp only [Encoder.encodedSize, entryPoint_eq_ok.2 hPoint, bind, Except.bind, hStatic]

theorem encodedSize_of_dynamic {point : EntryPoint} {function : String}
    (hPoint : encoder.program.entryPoint? root = some point)
    (hDynamic : point.size = .dynamic function) :
    encoder.encodedSize root value =
      encoder.dynamicSize (value.depth + encoder.program.sizeFunctions.length + 2) point.source
        (some value) := by
  simp only [Encoder.encodedSize, entryPoint_eq_ok.2 hPoint, bind, Except.bind, hDynamic]

theorem prepare_eq_ok {size : Nat} {point : EntryPoint} {needed : Nat} {function : EncodeFunction}
    (h : encoder.prepare root size = .ok (point, needed, function)) :
    encoder.program.entryPoint? root = some point ∧
      encoder.staticSize point.source = .ok needed ∧ needed ≤ size ∧
      encoder.encodeFunction point.source = .ok function := by
  obtain ⟨found, hFound, h⟩ := bind_eq_ok.1 h
  obtain ⟨static, hStatic, h⟩ := bind_eq_ok.1 h
  split at h
  · cases h
  · obtain ⟨called, hCalled, h⟩ := bind_eq_ok.1 h
    cases h
    exact ⟨entryPoint_eq_ok.1 hFound, hStatic, by omega, hCalled⟩

/-- The ways in which encoding into a buffer can end. -/
theorem encodeInto_cases (encoder : Encoder) (root : String) (value : Value)
    (buffer : Array UInt8) :
    (∃ fault, encoder.prepare root buffer.size = .error fault ∧
      encoder.encodeInto root value buffer = (.error fault, buffer)) ∨
    ∃ point needed function, encoder.prepare root buffer.size = .ok (point, needed, function) ∧
      ((∃ fault out,
          encoder.run (encoder.callLimit value buffer.size) function (some value) 0
            ⟨buffer, min needed payloadLimit⟩ = .error fault out ∧
          encoder.encodeInto root value buffer = (.error fault, out.buffer)) ∨
        ∃ out,
          encoder.run (encoder.callLimit value buffer.size) function (some value) 0
            ⟨buffer, min needed payloadLimit⟩ = .ok () out ∧
          encoder.encodeInto root value buffer =
            (.ok (if point.varLen then max out.cursor needed else needed), out.buffer)) := by
  unfold Encoder.encodeInto
  cases hPrepare : encoder.prepare root buffer.size with
  | error fault => exact .inl ⟨fault, rfl, rfl⟩
  | ok found =>
      obtain ⟨point, needed, function⟩ := found
      refine .inr ⟨point, needed, function, rfl, ?_⟩
      dsimp only
      cases hRun : encoder.run (encoder.callLimit value buffer.size) function (some value) 0
          ⟨buffer, min needed payloadLimit⟩ with
      | ok done out => exact .inr ⟨out, rfl, rfl⟩
      | error fault out => exact .inl ⟨fault, out, rfl, rfl⟩

/-- What `encode` does once the size is known. -/
theorem encode_of_encodedSize {size : Nat} (h : encoder.encodedSize root value = .ok size) :
    encoder.encode root value =
      if size > encoder.maxAllocation then .error (.error (.allocationFailed size))
      else match encoder.encodeInto root value (Array.replicate size 0) with
        | (.ok _, bytes) => .ok bytes
        | (.error fault, _) => .error fault := by
  unfold Encoder.encode
  rw [h]
  show (if size > encoder.maxAllocation then _ else _) = _
  split
  · rfl
  · rfl

theorem encode_error {fault : Fault} (h : encoder.encode root value = .error fault) :
    encoder.encodedSize root value = .error fault ∨
      (∃ size, fault = .error (.allocationFailed size)) ∨
      ∃ size, (encoder.encodeInto root value (Array.replicate size 0)).1 = .error fault := by
  cases hSize : encoder.encodedSize root value with
  | error cause =>
      unfold Encoder.encode at h
      rw [hSize] at h
      cases h
      exact .inl rfl
  | ok size =>
      rw [encode_of_encodedSize hSize] at h
      split at h
      · cases h
        exact .inr (.inl ⟨size, rfl⟩)
      · split at h
        · cases h
        · rename_i hInto
          cases h
          exact .inr (.inr ⟨size, by rw [hInto]⟩)

theorem encode_eq_ok {bytes : Array UInt8} (h : encoder.encode root value = .ok bytes) :
    ∃ size stop, encoder.encodedSize root value = .ok size ∧ size ≤ encoder.maxAllocation ∧
      encoder.encodeInto root value (Array.replicate size 0) = (.ok stop, bytes) := by
  cases hSize : encoder.encodedSize root value with
  | error cause =>
      unfold Encoder.encode at h
      rw [hSize] at h
      cases h
  | ok size =>
      rw [encode_of_encodedSize hSize] at h
      split at h
      · cases h
      · rename_i hLimit
        split at h
        · rename_i stop found hInto
          cases h
          exact ⟨size, stop, rfl, by omega, hInto⟩
        · cases h

theorem lastOutput_of_prepare {point : EntryPoint} {needed : Nat} {function : EncodeFunction}
    (h : encoder.prepare root buffer.size = .ok (point, needed, function)) :
    encoder.lastOutput root value buffer =
      match encoder.run (encoder.callLimit value buffer.size) function (some value) 0
        ⟨buffer, min needed payloadLimit⟩ with
      | .ok _ out => .ok (needed, out)
      | .error _ out => .ok (needed, out) := by
  unfold Encoder.lastOutput
  rw [h]
  rfl

/-- Encoding that has no last output has not begun. -/
theorem encodeInto_of_lastOutput_error {fault : Fault}
    (h : encoder.lastOutput root value buffer = .error fault) :
    encoder.encodeInto root value buffer = (.error fault, buffer) := by
  rcases encoder.encodeInto_cases root value buffer with
    ⟨cause, hPrepare, hInto⟩ | ⟨point, needed, function, hPrepare, _⟩
  · unfold Encoder.lastOutput at h
    rw [hPrepare] at h
    cases h
    exact hInto
  · rw [lastOutput_of_prepare hPrepare] at h
    split at h <;> cases h

end Encoder

/-! ## What encoding a root starts from -/

/-- What has been looked up for encoding a root into a buffer of the given size. -/
structure Encoder.Prepared (encoder : Encoder) (primitives : Primitives) (root : String)
    (size : Nat) (point : EntryPoint) (needed : Nat) (function : EncodeFunction) : Prop where
  entry : encoder.program.entryPoint? root = some point
  encodes : encoder.encodeFunction point.source = .ok function
  source : function.source = point.source
  varLen : function.varLen = point.varLen
  static_iff : point.size = .static ↔ point.varLen = false
  static : encoder.staticSize function.source = .ok needed
  room : needed ≤ size
  ready : encoder.Ready primitives encoder.program.encodeFunctions.length function

theorem Encoder.length_le_callLimit (encoder : Encoder) (value : Value) (size : Nat) :
    encoder.program.encodeFunctions.length ≤ encoder.callLimit value size := by
  have hRounds := Nat.le_mul_of_pos_right encoder.program.encodeFunctions.length
    (by omega : 0 < size + 2)
  unfold Encoder.callLimit
  omega

namespace Encoder.Prepared

variable {encoder : Encoder} {primitives : Primitives} {root : String} {size : Nat}
  {point : EntryPoint} {needed : Nat} {function : EncodeFunction}

theorem source_eq (h : encoder.Prepared primitives root size point needed function) :
    function.source = root := by
  have hName := List.find?_some h.entry
  rw [h.source]
  exact eq_of_beq hName

theorem encodedSize_of_fixed (h : encoder.Prepared primitives root size point needed function)
    (hFixed : function.varLen = false) (value : Value) :
    encoder.encodedSize root value = .ok needed := by
  have hStatic := h.static_iff.2 (h.varLen.symm.trans hFixed)
  rw [Encoder.encodedSize_of_static h.entry hStatic, ← h.source]
  exact h.static

theorem encodedSize_of_varLen (h : encoder.Prepared primitives root size point needed function)
    (hVarLen : function.varLen = true) (value : Value) :
    encoder.encodedSize root value =
      encoder.dynamicSize (value.depth + encoder.program.sizeFunctions.length + 2) function.source
        (some value) := by
  cases hCase : point.size with
  | static =>
      have hFixed := h.varLen.trans (h.static_iff.1 hCase)
      rw [hVarLen] at hFixed
      cases hFixed
  | dynamic name => rw [Encoder.encodedSize_of_dynamic h.entry hCase, h.source]

/-- Encoding a root is safe once its look-ups have succeeded. -/
theorem run_safe {buffer : Array UInt8}
    (h : encoder.Prepared primitives root buffer.size point needed function) (value : Value) :
    Encode.Safe primitives
      (encoder.run (encoder.callLimit value buffer.size) function (some value) 0) 0 needed
      function.varLen ⟨buffer, min needed payloadLimit⟩ := by
  have hRoom := h.room
  refine Encoder.safe_run h.ready (encoder.length_le_callLimit value _) needed h.static
    (some value) 0 _ ?_
  dsimp only
  omega

end Encoder.Prepared

/-! ## The parts of safety -/

namespace Deployed

variable {declarations : Declarations} {request : Request} {naming : Naming}
  {encoder : Encoder} {primitives : Primitives} {root : String} {value : Value}
  {buffer : Array UInt8}

theorem prepared (h : Deployed declarations request naming encoder primitives) {size : Nat}
    {point : EntryPoint} {needed : Nat} {function : EncodeFunction}
    (hPrepare : encoder.prepare root size = .ok (point, needed, function)) :
    encoder.Prepared primitives root size point needed function := by
  obtain ⟨hPoint, hStatic, hRoom, hFunction⟩ := Encoder.prepare_eq_ok hPrepare
  obtain ⟨found, hFound, hSource, hVarLen, hSize, hReady⟩ := h.ready_of_entryPoint hPoint
  rw [hFunction] at hFound
  cases hFound
  exact ⟨hPoint, hFunction, hSource, hVarLen, hSize, hSource ▸ hStatic, hRoom, hReady⟩

/-- Looking up what a root needs fails for an unknown root or a small buffer only. -/
theorem prepare_error (h : Deployed declarations request naming encoder primitives) {size : Nat}
    {fault : Fault} (hFault : encoder.prepare root size = .error fault) :
    fault = .error (.unknownRoot root) ∨
      ∃ needed, fault = .error (.bufferTooSmall needed size) := by
  rcases bind_eq_error.1 hFault with hRoot | ⟨point, hPoint, hFault⟩
  · exact .inl (Encoder.entryPoint_error hRoot)
  · obtain ⟨function, hFunction, hSource, _, _, hReady⟩ :=
      h.ready_of_entryPoint (Encoder.entryPoint_eq_ok.1 hPoint)
    obtain ⟨static, hStatic⟩ := hReady.exists_staticSize
    rw [hSource] at hStatic
    rcases bind_eq_error.1 hFault with hMissing | ⟨needed, _, hFault⟩
    · rw [hStatic] at hMissing
      cases hMissing
    · split at hFault
      · cases hFault
        exact .inr ⟨needed, rfl⟩
      · rcases bind_eq_error.1 hFault with hMissing | ⟨_, _, hFault⟩
        · rw [hFunction] at hMissing
          cases hMissing
        · cases hFault

/-- The run behind a root that was encoded into a buffer.  Without payload the cursor stays
where it was, so the end is the greater of the cursor and the packed size in any case. -/
theorem run_of_encodeInto (h : Deployed declarations request naming encoder primitives)
    {after : Array UInt8} {stop : Nat}
    (hInto : encoder.encodeInto root value buffer = (.ok stop, after)) :
    ∃ point needed function out,
      encoder.Prepared primitives root buffer.size point needed function ∧
        encoder.run (encoder.callLimit value buffer.size) function (some value) 0
          ⟨buffer, min needed payloadLimit⟩ = .ok () out ∧
        Frame 0 needed function.varLen ⟨buffer, min needed payloadLimit⟩ out ∧
        stop = max out.cursor needed ∧ after = out.buffer := by
  rcases encoder.encodeInto_cases root value buffer with
    ⟨_, _, hEq⟩ | ⟨point, needed, function, hPrepare, ⟨_, _, _, hEq⟩ | ⟨out, hRun, hEq⟩⟩
  · rw [hEq] at hInto
    cases hInto
  · rw [hEq] at hInto
    cases hInto
  · have hPrepared := h.prepared hPrepare
    have hFrame := (hPrepared.run_safe value).frame_of_ok hRun
    rw [hEq] at hInto
    cases hInto
    refine ⟨point, needed, function, out, hPrepared, hRun, hFrame, ?_, rfl⟩
    split
    · rfl
    · rename_i hFixed
      have hStill := hFrame.still (hPrepared.varLen.trans (by simpa using hFixed))
      dsimp only at hStill
      omega

/-- Sizing a root goes wrong for an unknown root or for its value only. -/
theorem encodedSize_error (h : Deployed declarations request naming encoder primitives)
    {fault : Fault} (hFault : encoder.encodedSize root value = .error fault) :
    encoder.entryPoint root = .error fault ∨ fault.FromValue := by
  rcases bind_eq_error.1 hFault with hRoot | ⟨point, hPoint, hFault⟩
  · exact .inl hRoot
  · obtain ⟨function, _, hSource, hVarLen, hSize, hReady⟩ :=
      h.ready_of_entryPoint (Encoder.entryPoint_eq_ok.1 hPoint)
    split at hFault
    · obtain ⟨static, hStatic⟩ := hReady.exists_staticSize
      rw [hSource, hFault] at hStatic
      cases hStatic
    · rename_i name hDynamic
      have hDoes : function.varLen = true := by
        cases hCase : function.varLen with
        | true => rfl
        | false =>
            rw [hSize.2 (hVarLen.symm.trans hCase)] at hDynamic
            cases hDynamic
      have hSome := hReady.exists_sizeFunction hDoes
      rw [hSource] at hSome
      have hSized := h.compiled.sized h.layouts h.fields hSome
      exact .inr (Encoder.dynamicSize_sound hSized (by omega) hFault)

/-- Encoding into a buffer goes wrong for what `prepare` looks up or for the value only. -/
theorem encodeInto_error (h : Deployed declarations request naming encoder primitives)
    (hPositive : primitives.Positive) {fault : Fault}
    (hFault : (encoder.encodeInto root value buffer).1 = .error fault) :
    fault.FromValue ∨
      (fault.Reported ∧ (encoder.encodeInto root value buffer).2 = buffer) := by
  rcases encoder.encodeInto_cases root value buffer with
    ⟨found, hPrepare, hEq⟩ |
      ⟨point, needed, function, hPrepare, ⟨found, out, hRun, hEq⟩ | ⟨out, _, hEq⟩⟩
  · rw [hEq] at hFault ⊢
    cases hFault
    refine .inr ⟨?_, rfl⟩
    rcases h.prepare_error hPrepare with rfl | ⟨_, rfl⟩ <;> trivial
  · rw [hEq] at hFault
    cases hFault
    have hSafe := (h.prepared hPrepare).run_safe value
    exact .inl ((hSafe.of_error hRun).1.fromValue hPositive)
  · rw [hEq] at hFault
    cases hFault

theorem reported_of_encodedSize (h : Deployed declarations request naming encoder primitives)
    {fault : Fault} (hFault : encoder.encodedSize root value = .error fault) : fault.Reported := by
  rcases h.encodedSize_error hFault with hRoot | hValue
  · rw [Encoder.entryPoint_error hRoot]
    trivial
  · exact hValue.reported

theorem reported_of_encodeInto (h : Deployed declarations request naming encoder primitives)
    (hPositive : primitives.Positive) {fault : Fault}
    (hFault : (encoder.encodeInto root value buffer).1 = .error fault) : fault.Reported := by
  rcases h.encodeInto_error hPositive hFault with hValue | ⟨hReported, _⟩
  · exact hValue.reported
  · exact hReported

theorem reported_of_encode (h : Deployed declarations request naming encoder primitives)
    (hPositive : primitives.Positive) {fault : Fault}
    (hFault : encoder.encode root value = .error fault) : fault.Reported := by
  rcases Encoder.encode_error hFault with hSize | ⟨size, rfl⟩ | ⟨size, hInto⟩
  · exact h.reported_of_encodedSize hSize
  · trivial
  · exact h.reported_of_encodeInto hPositive hInto

/-- Only an error that names the value comes after something has been written. -/
theorem unwritten_of_encodeInto (h : Deployed declarations request naming encoder primitives)
    (hPositive : primitives.Positive) {fault : Fault}
    (hFault : (encoder.encodeInto root value buffer).1 = .error fault)
    (hOther : ¬ fault.FromValue) : (encoder.encodeInto root value buffer).2 = buffer := by
  rcases h.encodeInto_error hPositive hFault with hValue | ⟨_, hSame⟩
  · exact absurd hValue hOther
  · exact hSame

/-- The last output of an encode run: it is what is left in the buffer, and differs from
what was there only below the packed size and the cursor. -/
theorem lastOutput_frame (h : Deployed declarations request naming encoder primitives)
    {needed : Nat} {out : Output}
    (hLast : encoder.lastOutput root value buffer = .ok (needed, out)) :
    (encoder.encodeInto root value buffer).2 = out.buffer ∧
      out.buffer.size = buffer.size ∧ out.cursor ≤ payloadLimit ∧
      ∀ i, max needed out.cursor ≤ i → out.buffer[i]? = buffer[i]? := by
  obtain ⟨⟨point, static, function⟩, hPrepare, _⟩ := bind_eq_ok.1 hLast
  have hSafe := (h.prepared hPrepare).run_safe value
  rw [Encoder.lastOutput_of_prepare hPrepare] at hLast
  have hAll : ∀ after, Frame 0 static function.varLen ⟨buffer, min static payloadLimit⟩ after →
      after.buffer.size = buffer.size ∧ after.cursor ≤ payloadLimit ∧
        ∀ i, max static after.cursor ≤ i → after.buffer[i]? = buffer[i]? := by
    intro after hFrame
    refine ⟨hFrame.size_eq, ?_, fun i hi => hFrame.outside i (by omega) (by omega)⟩
    have hBound := hFrame.cursor_bound
    dsimp only at hBound
    omega
  unfold Encoder.encodeInto
  rw [hPrepare]
  dsimp only at hLast ⊢
  split at hLast
  · rename_i hRun
    cases hLast
    rw [hRun]
    exact ⟨rfl, hAll out (hSafe.frame_of_ok hRun)⟩
  · rename_i hRun
    cases hLast
    rw [hRun]
    exact ⟨rfl, hAll out (hSafe.of_error hRun).2⟩

end Deployed

/-- **Safety of compiled programs**: an encoder of a compiled program, laid out with
primitive types of at least one byte, never goes wrong, whatever it is given.

Sizing and encoding end, and with no error but those for the caller: nothing is written
beyond the end of a buffer and no definition is missing.  The cursor stays below the
limit; it never moves back, so that holds all along.  An encoded size is not below that of
its packed type, so nothing is lost when the one is subtracted from the other.  Encoding
into a buffer leaves what is at or beyond the packed size and the cursor, and if the root
is unknown or the buffer too small, it leaves everything. -/
theorem compiled_program_safe {declarations : Declarations} {request : Request}
    {index : DirectiveIndex} {settings : Settings} {program : Program} {encoder : Encoder}
    {primitives : Primitives}
    (hCompile : compile declarations index settings request = .ok program)
    (hFields : program.DistinctFields declarations) (hUnmixed : program.Unmixed declarations index)
    (hPositive : primitives.Positive) (hEncoder : encoder.IsFor program primitives)
    (root : String) (value : Value) (buffer : Array UInt8) :
    (∀ fault, encoder.encodedSize root value = .error fault → fault.Reported) ∧
    (∀ fault, encoder.encode root value = .error fault → fault.Reported) ∧
    (∀ fault, (encoder.encodeInto root value buffer).1 = .error fault → fault.Reported) ∧
    (∀ fuel source input total size, encoder.dynamicSize fuel source input = .ok total →
      encoder.staticSize source = .ok size → size ≤ sizeLimit → size ≤ total) ∧
    (∀ fault, encoder.lastOutput root value buffer = .error fault →
      encoder.encodeInto root value buffer = (.error fault, buffer)) ∧
    (∀ needed out, encoder.lastOutput root value buffer = .ok (needed, out) →
      (encoder.encodeInto root value buffer).2 = out.buffer ∧
        out.buffer.size = buffer.size ∧ out.cursor ≤ payloadLimit ∧
        ∀ i, max needed out.cursor ≤ i → out.buffer[i]? = buffer[i]?) ∧
    (∀ name, (encoder.encodeInto root value buffer).1 = .error (.error (.unknownRoot name)) →
      (encoder.encodeInto root value buffer).2 = buffer) ∧
    ∀ needed available,
      (encoder.encodeInto root value buffer).1 =
          .error (.error (.bufferTooSmall needed available)) →
        (encoder.encodeInto root value buffer).2 = buffer := by
  obtain ⟨naming, h⟩ := deployed_of_compile hCompile hFields hUnmixed hEncoder
  exact ⟨fun _ => h.reported_of_encodedSize, fun _ => h.reported_of_encode hPositive,
    fun _ => h.reported_of_encodeInto hPositive, fun _ _ _ _ _ => Encoder.le_dynamicSize,
    fun _ => Encoder.encodeInto_of_lastOutput_error, fun _ _ => h.lastOutput_frame,
    fun _ hFault => h.unwritten_of_encodeInto hPositive hFault id,
    fun _ _ hFault => h.unwritten_of_encodeInto hPositive hFault id⟩

namespace Sample

theorem positive : Primitives.standard.Positive := by
  intro name primitive hGet
  rcases Table.of_get?_insertAll hGet with hMem | hNone
  · exact (by decide : ∀ entry ∈ Primitives.standard.entries, 0 < entry.2.size) _ hMem
  · cases hNone

def layouts : Layouts := (Layouts.ofProgram Primitives.standard program).toOption.getD Table.empty

/-- The encoder of the sample, without constants. -/
def encoder : Encoder := ⟨program, layouts, Table.empty, payloadLimit⟩

theorem isFor : encoder.IsFor program Primitives.standard :=
  Encoder.isFor_of_layouts (eq_ok_getD (by decide +kernel))

/-- A batch of two items. -/
def value : Value :=
  .record [("kind", .int 1), ("body", .record [("item", .record [("id", .int 513)])]),
    ("count", .int 2), ("items", .array [.record [("id", .int 3)], .record [("id", .int 4)]])]

def buffer : Array UInt8 := Array.replicate 20 255

theorem safe :
    (∀ fault, encoder.encodedSize "chreTestBatch" value = .error fault → fault.Reported) ∧
    (∀ fault, encoder.encode "chreTestBatch" value = .error fault → fault.Reported) ∧
    ∀ fault, (encoder.encodeInto "chreTestBatch" value buffer).1 = .error fault →
      fault.Reported := by
  have h := compiled_program_safe compiles distinctFields unmixed positive isFor "chreTestBatch"
    value buffer
  exact ⟨h.1, h.2.1, h.2.2.1⟩

end Sample

end WireSchema
