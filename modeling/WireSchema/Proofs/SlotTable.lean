import WireSchema.Directive.Document
import WireSchema.Table

/-!
# Directives by type and slot

An index of notes can be kept as a table of tables: a table by type, with a table by slot for
each type that has notes, and in it the directives on each slot that has some.  A note is put at
the end of the directives of its slot.  Looking a slot up takes two steps then and need not go
through all notes.

Both forms give the same directives in the same order, and count the same notes.

## Main results

* `SlotTable.lookup_add`: one more note changes its own slot only.
* `SlotTable.lookup_ofNotes`, `SlotTable.count_ofNotes`: all notes of an index.
-/

namespace WireSchema

/-- Directives by type and slot, and the number of notes they come from. -/
structure SlotTable where
  byType : Table (Table (List Directive))
  count : Nat

namespace SlotTable

/-- The table without notes. -/
def empty : SlotTable := ⟨Table.empty, 0⟩

/-- The slots of a type. -/
def slotsOf (table : SlotTable) (owner : String) : Table (List Directive) :=
  (table.byType.get? owner).getD Table.empty

/-- The directives on a slot. -/
def lookup (table : SlotTable) (owner slot : String) : List Directive :=
  ((table.slotsOf owner).get? slot).getD []

/-- The table with one more note. -/
def add (table : SlotTable) (note : Note) : SlotTable where
  byType := table.byType.insert note.owner
    ((table.slotsOf note.owner).insert note.slot
      (table.lookup note.owner note.slot ++ [note.directive]))
  count := table.count + 1

/-- The table of some notes, put in one after the other. -/
def ofNotes (notes : List Note) : SlotTable :=
  notes.foldl add empty

theorem slotsOf_add (table : SlotTable) (note : Note) (owner : String) :
    (table.add note).slotsOf owner =
      if owner = note.owner then
        (table.slotsOf note.owner).insert note.slot
          (table.lookup note.owner note.slot ++ [note.directive])
      else table.slotsOf owner := by
  rw [slotsOf, add, Table.get?_insert]
  split <;> rfl

/-- A note goes to the end of its slot, and to no other. -/
theorem lookup_add (table : SlotTable) (note : Note) (owner slot : String) :
    (table.add note).lookup owner slot =
      table.lookup owner slot ++ (DirectiveIndex.mk [note]).lookup owner slot := by
  rw [lookup, slotsOf_add]
  by_cases hOwner : owner = note.owner
  · rw [if_pos hOwner, Table.get?_insert]
    by_cases hSlot : slot = note.slot
    · simp [hOwner, hSlot, DirectiveIndex.lookup]
    · simp [hOwner, hSlot, Ne.symm hSlot, DirectiveIndex.lookup, lookup]
  · simp [hOwner, Ne.symm hOwner, DirectiveIndex.lookup, lookup]

theorem lookup_foldl_add (notes : List Note) (table : SlotTable) (owner slot : String) :
    (notes.foldl add table).lookup owner slot =
      table.lookup owner slot ++ (DirectiveIndex.mk notes).lookup owner slot := by
  induction notes generalizing table with
  | nil => simp [DirectiveIndex.lookup]
  | cons note rest ih =>
      have hSplit : (DirectiveIndex.mk (note :: rest)).lookup owner slot =
          (DirectiveIndex.mk [note]).lookup owner slot ++
            (DirectiveIndex.mk rest).lookup owner slot := by
        rw [DirectiveIndex.lookup, ← List.singleton_append, List.filter_append, List.map_append]
        rfl
      rw [List.foldl_cons, ih, lookup_add, hSplit, List.append_assoc]

/-- **Slots**: the table of an index has the directives of the index, slot by slot. -/
theorem lookup_ofNotes (index : DirectiveIndex) (owner slot : String) :
    (ofNotes index.notes).lookup owner slot = index.lookup owner slot :=
  lookup_foldl_add index.notes empty owner slot

theorem count_foldl_add (notes : List Note) (table : SlotTable) :
    (notes.foldl add table).count = table.count + notes.length := by
  induction notes generalizing table with
  | nil => rfl
  | cons note rest ih =>
      rw [List.foldl_cons, ih, List.length_cons]
      simp only [add]
      omega

theorem count_ofNotes (index : DirectiveIndex) : (ofNotes index.notes).count = index.size := by
  rw [ofNotes, count_foldl_add]
  exact Nat.zero_add _

end SlotTable

end WireSchema
