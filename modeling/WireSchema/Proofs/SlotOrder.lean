import Mathlib.Data.Fin.VecNotation
import Mathlib.Data.List.FinRange
import Mathlib.Data.List.NodupEquivFin
import WireSchema.Proofs.AlikeGraphs
import WireSchema.Proofs.MemberViews
import WireSchema.Proofs.SlotTable

/-!
# The order of notes

A document may say things in any order: the entries for one type need not stand in one group,
groups for different types may be mixed, and a group may be split or two merged.  The one order
that counts is that of the directives on one slot, where often the first of a kind is taken.

`KeepsSlotOrder` compares two sequences of notes.  Every note of one has its place in the other,
and of two notes on one slot the first stays first.  Indices of such sequences give the same
answers to every look-up, and no other sequences do.  A compile knows directives from look-ups
only, so it ends in the same way.

## Main results

* `filter_eq_of_place`, `exists_orderIso_of_filter_eq`: items that keep their order among those
  with a property.
* `DirectiveIndex.keepsSlotOrder_iff_agrees`: which sequences of notes look-ups do not tell apart.
* `DirectiveIndex.Agrees.compile_eq`: what look-ups do not tell apart compiles alike.
* `only_slot_order_matters`: all of this, for two sequences of notes.
-/

namespace WireSchema

/-! ## Places in a list -/

section Places

variable {α : Type} {p : α → Bool} {xs ys : List α}

/-- Where the items with a property are, in order. -/
def places (p : α → Bool) (xs : List α) : List (Fin xs.length) :=
  (List.finRange xs.length).filter fun i => p (xs.get i)

@[simp]
theorem mem_places {i : Fin xs.length} : i ∈ places p xs ↔ p (xs.get i) = true := by
  simp [places]

theorem sortedLT_places (p : α → Bool) (xs : List α) : (places p xs).SortedLT :=
  ((List.pairwise_lt_finRange xs.length).filter _).sortedLT

theorem map_get_places (p : α → Bool) (xs : List α) :
    (places p xs).map xs.get = xs.filter p := by
  conv_rhs => rw [← List.map_get_finRange xs, List.filter_map]
  rfl

/-- Items that go to places in the same order, as far as they have the property, are in the same
order there. -/
theorem filter_eq_of_place (place : Fin xs.length ≃ Fin ys.length)
    (hSame : ∀ i, ys.get (place i) = xs.get i)
    (hOrder : ∀ i j, i < j → p (xs.get i) = true → p (xs.get j) = true → place i < place j) :
    xs.filter p = ys.filter p := by
  have hSorted : ((places p xs).map place).SortedLT := by
    rw [List.sortedLT_iff_pairwise, List.pairwise_map, places, List.pairwise_filter]
    exact (List.pairwise_lt_finRange xs.length).imp (hOrder _ _)
  have hPlaces : (places p xs).map place = places p ys := by
    apply hSorted.eq_of_mem_iff (sortedLT_places p ys)
    intro j
    obtain ⟨i, rfl⟩ := place.surjective j
    rw [List.mem_map_of_injective place.injective, mem_places, mem_places, hSame]
  have hGet : ys.get ∘ place = xs.get := funext hSame
  rw [← map_get_places, ← map_get_places, ← hPlaces, List.map_map, hGet]

/-- If the items with the property are the same, their places correspond to each other in
order. -/
theorem exists_orderIso_of_filter_eq (h : xs.filter p = ys.filter p) :
    ∃ place : { i // i ∈ places p xs } ≃o { j // j ∈ places p ys },
      ∀ i, ys.get (place i) = xs.get i := by
  have hMaps : (places p xs).map xs.get = (places p ys).map ys.get := by
    rw [map_get_places, map_get_places, h]
  have hLength : (places p xs).length = (places p ys).length := by
    simpa using congrArg List.length hMaps
  -- The place of a rank goes to the place of the same rank.
  let ranked := (sortedLT_places p xs).getIso
  let place := ranked.symm.trans
    ((Fin.castOrderIso hLength).trans (sortedLT_places p ys).getIso)
  refine ⟨place, fun i => ?_⟩
  obtain ⟨rank, rfl⟩ := ranked.surjective i
  have hRank := List.getElem_of_eq hMaps (i := rank) (by simp)
  simpa [place, ranked] using hRank.symm

end Places

/-! ## Sequences of notes -/

/-- The slot that a note is on, and the type that has it. -/
def Note.address (note : Note) : String × String :=
  (note.owner, note.slot)

/-- The notes are the same, and those on one slot stand in the same order: the note at `i` has
gone to `place i`. -/
def KeepsSlotOrder (first second : List Note) : Prop :=
  ∃ place : Fin first.length ≃ Fin second.length,
    (∀ i, second.get (place i) = first.get i) ∧
      ∀ i j, i < j → (first.get i).address = (first.get j).address → place i < place j

namespace KeepsSlotOrder

variable {first second : List Note}

theorem length_eq (h : KeepsSlotOrder first second) : first.length = second.length := by
  obtain ⟨place, _⟩ := h
  exact Fin.equiv_iff_eq.1 ⟨place⟩

theorem filter_eq (h : KeepsSlotOrder first second) (address : String × String) :
    first.filter (·.address == address) = second.filter (·.address == address) := by
  obtain ⟨place, hSame, hOrder⟩ := h
  apply filter_eq_of_place place hSame
  intro i j hLt hi hj
  exact hOrder i j hLt ((eq_of_beq hi).trans (eq_of_beq hj).symm)

/-- The order slot by slot is all there is to know. -/
theorem of_filter_eq
    (h : ∀ address, first.filter (·.address == address) = second.filter (·.address == address)) :
    KeepsSlotOrder first second := by
  choose onSlot hOnSlot using fun address => exists_orderIso_of_filter_eq (h address)
  have hAt : ∀ i, i ∈ places (·.address == (first.get i).address) first := by simp
  -- A note goes where it has to among the notes on its slot.
  let place (i : Fin first.length) : Fin second.length :=
    onSlot (first.get i).address ⟨i, hAt i⟩
  have hPlace : ∀ address i, (hi : i ∈ places (·.address == address) first) →
      place i = onSlot address ⟨i, hi⟩ := by
    intro address i hi
    obtain rfl : (first.get i).address = address := eq_of_beq (mem_places.1 hi)
    rfl
  have hSame : ∀ i, second.get (place i) = first.get i := fun i => hOnSlot _ ⟨i, hAt i⟩
  have hInjective : Function.Injective place := by
    intro i j hEq
    have hAddress : (first.get i).address = (first.get j).address := by
      rw [← hSame i, ← hSame j, hEq]
    rw [hPlace _ i (hAt i), hPlace _ j (hAddress ▸ hAt j)] at hEq
    exact congrArg Subtype.val ((onSlot _).injective (Subtype.ext hEq))
  have hSurjective : Function.Surjective place := by
    intro j
    have hj : j ∈ places (·.address == (second.get j).address) second := by simp
    obtain ⟨⟨i, hi⟩, hEq⟩ := (onSlot _).surjective ⟨j, hj⟩
    exact ⟨i, (hPlace _ i hi).trans (congrArg Subtype.val hEq)⟩
  refine ⟨Equiv.ofBijective place ⟨hInjective, hSurjective⟩, hSame, fun i j hLt hAddress => ?_⟩
  show place i < place j
  rw [hPlace _ i (hAt i), hPlace _ j (hAddress ▸ hAt j)]
  exact (onSlot _).strictMono hLt

end KeepsSlotOrder

namespace DirectiveIndex

/-- The indices have the same directives on every slot. -/
def Agrees (first second : DirectiveIndex) : Prop :=
  ∀ owner slot, first.lookup owner slot = second.lookup owner slot

/-- The notes on a slot are known from the directives on it. -/
theorem filter_address (index : DirectiveIndex) (owner slot : String) :
    index.notes.filter (·.address == (owner, slot)) =
      (index.lookup owner slot).map (Note.mk owner slot) := by
  rw [lookup, List.map_map]
  refine (List.map_id _).symm.trans (List.map_congr_left fun note hNote => ?_)
  obtain ⟨rfl, rfl⟩ := Prod.mk.inj (eq_of_beq (List.mem_filter.1 hNote).2)
  rfl

/-- **Exactness**: look-ups do not tell two sequences of notes apart exactly if the notes are the
same and keep their order slot by slot. -/
theorem keepsSlotOrder_iff_agrees {first second : DirectiveIndex} :
    KeepsSlotOrder first.notes second.notes ↔ first.Agrees second := by
  constructor
  · intro h owner slot
    exact congrArg (List.map Note.directive) (h.filter_eq (owner, slot))
  · intro h
    apply KeepsSlotOrder.of_filter_eq
    rintro ⟨owner, slot⟩
    rw [filter_address, filter_address, h owner slot]

/-! ## Compiling -/

namespace Agrees

variable {first second : DirectiveIndex} (h : first.Agrees second)

include h

/-- Types are discovered with the same members. -/
theorem discovery_eq (declarations : Declarations) :
    discovery declarations first = discovery declarations second := by
  have hMember : ∀ owner, Member.ofField first owner = Member.ofField second owner := by
    intro owner
    funext field
    unfold Member.ofField
    rw [h owner field.name]
  refine Worklist.eq_of_visit rfl fun name => ?_
  unfold discovery Outline.ofName
  simp only [hMember]

theorem build_eq (declarations : Declarations) (roots : List String) :
    TypeGraph.build declarations first roots = TypeGraph.build declarations second roots := by
  unfold TypeGraph.build discover
  rw [h.discovery_eq]

/-- Types are renamed alike. -/
theorem naming_alike (graph : TypeGraph) (settings : Settings) (service : String) :
    (Naming.forService graph second settings service).Alike
      (Naming.forService graph first settings service) := by
  refine ⟨.refl graph, funext fun source => ?_, rfl, rfl⟩
  unfold Naming.renamed? Naming.forService typeLevel
  rw [h source typeSlot]

theorem programOf_eq (graph : TypeGraph) (settings : Settings) (request : Request) :
    programOf graph first settings request = programOf graph second settings request := by
  have hAlike := h.naming_alike graph settings request.service
  unfold programOf
  dsimp only
  rw [hAlike.packedTypes_eq rfl, hAlike.sizeFunctions_eq rfl, hAlike.encodeFunctions_eq rfl,
    hAlike.entryPoints_eq]

/-- **Compiling**: what look-ups do not tell apart compiles to the same program or fails with
the same error. -/
theorem compile_eq (declarations : Declarations) (settings : Settings) (request : Request) :
    compile declarations first settings request =
      compile declarations second settings request := by
  unfold compile
  rw [h.build_eq]
  exact congrArg _ (funext fun graph => h.programOf_eq graph settings request)

end Agrees

end DirectiveIndex

/-- **The order of notes**: two sequences of the same notes, in which those on one slot stand in
the same order, in whatever groups they came, give the same directives on every slot and on every
type, as many of them, and every compile ends in the same way.  The same holds of the tables that
are filled note by note. -/
theorem only_slot_order_matters {first second : DirectiveIndex}
    (h : KeepsSlotOrder first.notes second.notes) :
    (∀ owner slot, first.lookup owner slot = second.lookup owner slot) ∧
      (∀ owner, first.typeLevel owner = second.typeLevel owner) ∧
      first.size = second.size ∧
      (∀ owner slot, (SlotTable.ofNotes first.notes).lookup owner slot =
        (SlotTable.ofNotes second.notes).lookup owner slot) ∧
      (SlotTable.ofNotes first.notes).count = (SlotTable.ofNotes second.notes).count ∧
      ∀ declarations settings request,
        compile declarations first settings request =
          compile declarations second settings request := by
  have hAgrees := DirectiveIndex.keepsSlotOrder_iff_agrees.1 h
  refine ⟨hAgrees, fun owner => hAgrees owner typeSlot, h.length_eq, ?_, ?_, hAgrees.compile_eq⟩
  · intro owner slot
    rw [SlotTable.lookup_ofNotes, SlotTable.lookup_ofNotes, hAgrees]
  · rw [SlotTable.count_ofNotes, SlotTable.count_ofNotes]
    exact h.length_eq

namespace Sample

/-- The directives on a batch in one group, those on an item after it.  Of the two constants the
first counts. -/
def sortedGroups : List DirectiveGroup :=
  [ ⟨"chreTestBatch",
      [ ⟨"body", .unionVariant "kind" [(.int 0, "code"), (.int 1, "item")]⟩
      , ⟨"items", .varLenArray "count"⟩, ⟨"reserved", .fixedValue (.int 7)⟩
      , ⟨"reserved", .fixedValue (.int 9)⟩ ]⟩
  , ⟨"chreTestItem", [⟨".", .renameType "TestEntry"⟩]⟩ ]

/-- The same directives in four groups, with those on an item between them. -/
def mixedGroups : List DirectiveGroup :=
  [ ⟨"chreTestBatch", [⟨"reserved", .fixedValue (.int 7)⟩]⟩
  , ⟨"chreTestItem", [⟨".", .renameType "TestEntry"⟩]⟩
  , ⟨"chreTestBatch", [⟨"items", .varLenArray "count"⟩, ⟨"reserved", .fixedValue (.int 9)⟩]⟩
  , ⟨"chreTestBatch",
      [⟨"body", .unionVariant "kind" [(.int 0, "code"), (.int 1, "item")]⟩]⟩ ]

/-- Where each note of the sorted groups is in the mixed ones. -/
def mixing : Equiv.Perm (Fin 5) where
  toFun := ![4, 2, 0, 3, 1]
  invFun := ![2, 4, 1, 3, 0]
  left_inv := by unfold Function.LeftInverse; decide
  right_inv := by unfold Function.RightInverse Function.LeftInverse; decide

/-- What the sorted groups compile to. -/
def sortedProgram : Program :=
  (compileWithin 20 declarations (.ofGroups sortedGroups) {} request).getD default

/-- The mixed groups compile to the same program, which sets the reserved bytes to 7. -/
theorem mixed_groups_compile :
    KeepsSlotOrder (DirectiveIndex.ofGroups sortedGroups).notes
        (DirectiveIndex.ofGroups mixedGroups).notes ∧
      compile declarations (.ofGroups mixedGroups) {} request = .ok sortedProgram ∧
      ∃ function ∈ sortedProgram.encodeFunctions,
        .fixedFill "reserved" (.int 7) ∈ function.steps := by
  have hKeeps : KeepsSlotOrder (DirectiveIndex.ofGroups sortedGroups).notes
      (DirectiveIndex.ofGroups mixedGroups).notes :=
    ⟨mixing, by decide, by decide⟩
  obtain ⟨_, _, _, _, _, hCompile⟩ := only_slot_order_matters hKeeps
  refine ⟨hKeeps, ?_, by decide +kernel⟩
  rw [← hCompile]
  exact compile_getD (by decide +kernel)

end Sample

end WireSchema
