import WireSchema.Proofs.EncodeSafety

/-!
# Encoded sizes of compiled programs

A size function looks up the members of its type and calls size functions before it, so
in a compiled program it always ends with a size or for a fault of the source value.
The size is never below that of the packed type, and how much fuel there was does not
matter once it is enough.

## Main results

* `Compiled.sized`: in a compiled program that is laid out, size functions are sized.
* `Encoder.dynamicSize_sound`: a computation that goes wrong does so for the value.
* `Encoder.le_dynamicSize`: no size is below that of the packed type.
* `Encoder.dynamicSize_fuel`: fuel does not matter.
-/

namespace WireSchema

namespace Encoder

variable {encoder : Encoder}

/-- A type whose encoded size can be computed, with fewer than `height` calls in a chain
below it. -/
def Sized (encoder : Encoder) : (height : Nat) → String → Prop
  | 0, _ => False
  | height + 1, source =>
    (∃ size, encoder.staticSize source = .ok size) ∧
      ∀ sizes, encoder.program.sizeFunction? source = some sizes → ∀ term ∈ sizes.terms,
        match term with
        | .varLen field _ _ => ∃ layout, encoder.fieldLayout source field = .ok layout
        | .nested _ nested _ _ => encoder.Sized height nested

theorem Sized.exists_staticSize {height : Nat} {source : String} (h : encoder.Sized height source) :
    ∃ size, encoder.staticSize source = .ok size := by
  cases height with
  | zero => exact h.elim
  | succ height => exact h.1

/-! ## Terms -/

section Terms

variable {call : String → Option Value → Except Fault Nat} {source : String} {value : Option Value}

theorem addTerms_cons {size total : Nat} {term : SizeTerm} {rest : List SizeTerm} :
    encoder.addTerms call source value size (term :: rest) = .ok total ↔
      ∃ more, encoder.termSize call source value term = .ok more ∧
        encoder.addTerms call source value (addSizes size more) rest = .ok total := by
  rw [Encoder.addTerms, bind_eq_ok]

/-- Adding terms does not make a size smaller, unless it was beyond the limit. -/
theorem min_le_addTerms {size total : Nat} {terms : List SizeTerm}
    (h : encoder.addTerms call source value size terms = .ok total) :
    min size sizeLimit ≤ total := by
  induction terms generalizing size with
  | nil =>
      cases h
      exact Nat.min_le_left _ _
  | cons term rest ih =>
      obtain ⟨more, _, hRest⟩ := addTerms_cons.1 h
      have hNext := ih hRest
      unfold addSizes at hNext
      omega

/-- Terms go wrong where one of them does. -/
theorem exists_of_addTerms_error {size : Nat} {terms : List SizeTerm} {fault : Fault}
    (h : encoder.addTerms call source value size terms = .error fault) :
    ∃ term ∈ terms, encoder.termSize call source value term = .error fault := by
  induction terms generalizing size with
  | nil => cases h
  | cons term rest ih =>
      rcases bind_eq_error.1 h with hTerm | ⟨more, _, hRest⟩
      · exact ⟨term, List.mem_cons_self, hTerm⟩
      · obtain ⟨found, hFound, hFault⟩ := ih hRest
        exact ⟨found, List.mem_cons_of_mem _ hFound, hFault⟩

/-- Terms go wrong only for the value, if that holds for the calls in them. -/
theorem fromValue_of_addTerms {size : Nat} {terms : List SizeTerm} {fault : Fault}
    (hTerms : ∀ term ∈ terms, match term with
      | .varLen field _ _ => ∃ layout, encoder.fieldLayout source field = .ok layout
      | .nested _ nested _ _ => (∃ size, encoder.staticSize nested = .ok size) ∧
        ∀ value fault, call nested value = .error fault → fault.FromValue)
    (h : encoder.addTerms call source value size terms = .error fault) : fault.FromValue := by
  obtain ⟨term, hMem, hTerm⟩ := exists_of_addTerms_error h
  have hKnown := hTerms term hMem
  cases term with
  | varLen field lengthField element =>
      obtain ⟨layout, hLayout⟩ := hKnown
      rcases bind_eq_error.1 hTerm with hFault | ⟨_, _, hTerm⟩
      · rw [hLayout] at hFault
        cases hFault
      · rcases bind_eq_error.1 hTerm with hFault | ⟨_, _, hTerm⟩
        · exact fromValue_of_lengthOf hFault
        · cases hTerm
  | nested field nested target function =>
      obtain ⟨⟨static, hStatic⟩, hCall⟩ := hKnown
      rcases bind_eq_error.1 hTerm with hFault | ⟨_, _, hTerm⟩
      · exact hCall _ _ hFault
      · rcases bind_eq_error.1 hTerm with hFault | ⟨_, _, hTerm⟩
        · rw [hStatic] at hFault
          cases hFault
        · cases hTerm

/-- Terms depend on what the calls in them give, and on nothing else of the calls. -/
theorem addTerms_congr {other : String → Option Value → Except Fault Nat} {size : Nat}
    {terms : List SizeTerm}
    (h : ∀ field nested target function, SizeTerm.nested field nested target function ∈ terms →
      ∀ value, call nested value = other nested value) :
    encoder.addTerms call source value size terms =
      encoder.addTerms other source value size terms := by
  induction terms generalizing size with
  | nil => rfl
  | cons term rest ih =>
      have hTerm : encoder.termSize call source value term =
          encoder.termSize other source value term := by
        cases term with
        | varLen field lengthField element => rfl
        | nested field nested target function =>
            have hCall := h field nested target function List.mem_cons_self (fieldOf value field)
            exact congrArg (· >>= _) hCall
      rw [Encoder.addTerms, Encoder.addTerms, hTerm]
      refine bind_congr fun more => ih fun field nested target function hMem => ?_
      exact h field nested target function (List.mem_cons_of_mem _ hMem)

end Terms

/-! ## Size functions -/

theorem dynamicSize_eq_ok {fuel : Nat} {source : String} {value : Option Value} {total : Nat} :
    encoder.dynamicSize (fuel + 1) source value = .ok total ↔
      ∃ size, encoder.staticSize source = .ok size ∧
        match encoder.program.sizeFunction? source with
        | none => total = size
        | some sizes =>
          encoder.addTerms (encoder.dynamicSize fuel) source value size sizes.terms =
            .ok total := by
  rw [Encoder.dynamicSize, bind_eq_ok]
  refine exists_congr fun size => and_congr_right fun _ => ?_
  cases encoder.program.sizeFunction? source with
  | none =>
      dsimp only
      rw [pure_eq_ok, eq_comm]
  | some sizes => rfl

/-- No encoded size is below that of the packed type, as far as that is within the limit. -/
theorem min_le_dynamicSize {fuel : Nat} {source : String} {value : Option Value} {size total : Nat}
    (h : encoder.dynamicSize fuel source value = .ok total)
    (hStatic : encoder.staticSize source = .ok size) : min size sizeLimit ≤ total := by
  cases fuel with
  | zero => cases h
  | succ fuel =>
      obtain ⟨found, hFound, hTerms⟩ := dynamicSize_eq_ok.1 h
      rw [hStatic] at hFound
      cases hFound
      split at hTerms
      · omega
      · exact min_le_addTerms hTerms

/-- No encoded size is below that of the packed type. -/
theorem le_dynamicSize {fuel : Nat} {source : String} {value : Option Value} {size total : Nat}
    (h : encoder.dynamicSize fuel source value = .ok total)
    (hStatic : encoder.staticSize source = .ok size) (hSize : size ≤ sizeLimit) : size ≤ total := by
  have hLe := min_le_dynamicSize h hStatic
  omega

/-- A size function that can be computed goes wrong only for the value. -/
theorem dynamicSize_sound {height : Nat} {source : String} (h : encoder.Sized height source)
    {fuel : Nat} (hFuel : height ≤ fuel) {value : Option Value} {fault : Fault}
    (hFault : encoder.dynamicSize fuel source value = .error fault) : fault.FromValue := by
  induction height generalizing source fuel value fault with
  | zero => exact h.elim
  | succ height ih =>
      obtain ⟨fuel, rfl⟩ : ∃ k, fuel = k + 1 := ⟨fuel - 1, by omega⟩
      obtain ⟨⟨size, hSize⟩, hTerms⟩ := h
      rw [Encoder.dynamicSize] at hFault
      rcases bind_eq_error.1 hFault with hStatic | ⟨_, _, hFault⟩
      · rw [hSize] at hStatic
        cases hStatic
      · split at hFault
        · cases hFault
        · rename_i sizes hSizes
          refine fromValue_of_addTerms (fun term hTerm => ?_) hFault
          have hOne := hTerms sizes hSizes term hTerm
          cases term with
          | varLen field lengthField element => exact hOne
          | nested field nested target function =>
              exact ⟨hOne.exists_staticSize, fun _ _ hCall => ih hOne (by omega) hCall⟩

/-- Fuel beyond the height of a size function changes nothing. -/
theorem dynamicSize_fuel {height : Nat} {source : String} (h : encoder.Sized height source)
    {fuel : Nat} (hFuel : height ≤ fuel) (value : Option Value) :
    encoder.dynamicSize fuel source value = encoder.dynamicSize height source value := by
  induction height generalizing source fuel value with
  | zero => exact h.elim
  | succ height ih =>
      obtain ⟨fuel, rfl⟩ : ∃ k, fuel = k + 1 := ⟨fuel - 1, by omega⟩
      obtain ⟨_, hTerms⟩ := h
      rw [Encoder.dynamicSize, Encoder.dynamicSize]
      refine bind_congr fun size => ?_
      cases hSizes : encoder.program.sizeFunction? source with
      | none => rfl
      | some sizes =>
          refine addTerms_congr fun field nested target function hMem value => ?_
          exact ih (hTerms sizes hSizes _ hMem) (by omega) value

end Encoder

/-! ## Compiled programs -/

namespace Compiled

variable {declarations : Declarations} {request : Request} {naming : Naming}
  {encoder : Encoder} {primitives : Primitives}

/-- Every member of a packed type has a place. -/
theorem exists_fieldLayout (h : Compiled declarations request naming encoder.program)
    (hLayouts : Layouts.ofProgram primitives encoder.program = .ok encoder.layouts)
    (hFields : encoder.program.DistinctFields declarations) {entry : TypeEntry}
    (hEntry : entry ∈ naming.graph.entriesOf (naming.graph.postOrder naming.graph.roots)) :
    (∃ size, encoder.staticSize entry.name = .ok size) ∧
      ∀ member ∈ entry.members, ∃ layout,
        encoder.fieldLayout entry.name member.name = .ok layout := by
  obtain ⟨type, hType, hMade⟩ := h.exists_type hEntry
  obtain ⟨hSource, _, hPacked⟩ := Naming.packedType_eq_ok hMade
  obtain ⟨size, fields, hSize, hFrom, hPlaces⟩ := h.exists_layout hLayouts hFields hType
  rw [← hSource]
  refine ⟨⟨size, hSize⟩, fun member hMember => ?_⟩
  obtain ⟨packed, hPack, hPacks⟩ := exists_right_of_mem hPacked hMember
  have hName : packed.name ∈ fields.map Prod.fst := by
    have hNames := Layouts.map_fst_fieldsFrom hFrom
    dsimp only at hNames
    rw [hNames]
    exact List.mem_map_of_mem hPack
  obtain ⟨pair, hPair, hSame⟩ := List.mem_map.1 hName
  refine ⟨pair.2, ?_⟩
  rw [← (Naming.packedMember_eq_ok hPacks).1, ← hSame]
  exact hPlaces pair hPair

private theorem sized_of_split (h : Compiled declarations request naming encoder.program)
    (hLayouts : Layouts.ofProgram primitives encoder.program = .ok encoder.layouts)
    (hFields : encoder.program.DistinctFields declarations) (height : Nat) :
    ∀ before sizes after, before.length < height →
      encoder.program.sizeFunctions = before ++ sizes :: after →
      encoder.Sized height sizes.source := by
  induction height with
  | zero =>
      intro before sizes after hLength
      omega
  | succ height ih =>
      intro before sizes after hLength hSplit
      obtain ⟨lead, entry, tail, hOrder, hName, hTerms, hEarlier⟩ := h.exists_size_order hSplit
      have hEnum := h.sound.enumeration_postOrder naming.graph.roots
      have hEntry : entry ∈ naming.graph.entriesOf (naming.graph.postOrder naming.graph.roots) := by
        rw [hOrder]
        simp
      obtain ⟨hSize, hPlaces⟩ := h.exists_fieldLayout hLayouts hFields hEntry
      obtain ⟨parts, hParts, hFiltered⟩ := Naming.sizeTerms_eq_ok hTerms
      rw [← hName]
      refine ⟨hSize, fun found hFound term hTerm => ?_⟩
      -- Any size function of this type has the same terms.
      have hSameTerms := h.sizeTerms_of_sizeFunction? (TypeGraph.entriesOf_subset hEntry) hFound
      rw [hTerms] at hSameTerms
      rw [← Except.ok.inj hSameTerms] at hTerm
      have hFilteredMem := hTerm
      rw [hFiltered] at hFilteredMem
      obtain ⟨_, hPart, rfl⟩ := List.mem_filterMap.1 hFilteredMem
      obtain ⟨member, hMember, hAdds⟩ := exists_left_of_mem hParts hPart
      have hField := sizeTerm?_field hAdds
      cases term with
      | varLen field lengthField element =>
          obtain rfl : field = member.name := hField
          exact hPlaces member hMember
      | nested field nested target function =>
          have hCallee : nested ∈ sizes.terms.filterMap Naming.callee? :=
            List.mem_filterMap.2 ⟨_, hTerm, rfl⟩
          have hSome := h.sizeFunction?_of_callee (by rw [hSplit]; simp) hCallee
          obtain ⟨called, hCalled, rfl, hNames⟩ := h.nested_of_callee hTerms hCallee
          have hLead := hEnum.nested_before lead entry tail hOrder called hCalled hNames
          obtain ⟨callee, hBefore, hCalleeName⟩ := hEarlier called hLead hSome
          obtain ⟨front, back, rfl⟩ := List.append_of_mem hBefore
          rw [List.length_append, List.length_cons] at hLength
          rw [← hCalleeName]
          exact ih front callee (back ++ sizes :: after) (by omega) (by rw [hSplit]; simp)

/-- A type that has a size function can be sized. -/
theorem sized (h : Compiled declarations request naming encoder.program)
    (hLayouts : Layouts.ofProgram primitives encoder.program = .ok encoder.layouts)
    (hFields : encoder.program.DistinctFields declarations) {source : String}
    (hSome : (encoder.program.sizeFunction? source).isSome) :
    encoder.Sized encoder.program.sizeFunctions.length source := by
  rw [Program.sizeFunction?, find?_name_isSome] at hSome
  obtain ⟨sizes, hSizes, rfl⟩ := List.mem_map.1 hSome
  obtain ⟨before, after, hSplit⟩ := List.append_of_mem hSizes
  refine h.sized_of_split hLayouts hFields _ before sizes after ?_ hSplit
  rw [hSplit, List.length_append, List.length_cons]
  omega

end Compiled

end WireSchema
