import Mathlib.Data.List.Nodup
import WireSchema.Table

/-!
# Looking up by name

Types, functions and members are found by their names.  Where names are distinct, a
look-up finds the one item of that name, wherever it stands.

## Main results

* `find?_name_eq_some`, `findIdx?_name_eq_some`: a look-up in a list with distinct names.
* `Table.get?_ofList`: a look-up in a table made from distinct names.
-/

namespace WireSchema

section Find

variable {α : Type} {name : α → String} {xs : List α}

/-- With distinct names, the first item of a name is the only one. -/
theorem find?_name_eq_some (h : (xs.map name).Nodup) {key : String} {x : α} :
    xs.find? (fun y => name y == key) = some x ↔ x ∈ xs ∧ name x = key := by
  constructor
  · intro hFind
    exact ⟨List.mem_of_find?_eq_some hFind, by simpa using List.find?_some hFind⟩
  · rintro ⟨hMem, rfl⟩
    induction xs with
    | nil => simp at hMem
    | cons y ys ih =>
        rw [List.map_cons, List.nodup_cons] at h
        rcases List.mem_cons.1 hMem with rfl | hMem
        · simp
        · have hNe : ¬ name y = name x := fun e => h.1 (e ▸ List.mem_map_of_mem hMem)
          rw [List.find?_cons_of_neg (by simpa using hNe)]
          exact ih h.2 hMem

theorem find?_name_isSome {key : String} :
    (xs.find? fun y => name y == key).isSome ↔ key ∈ xs.map name := by
  rw [List.find?_isSome, List.mem_map]
  exact exists_congr fun x => and_congr_right fun _ => beq_iff_eq

/-- With distinct names, the place of a name is that of the one item that has it. -/
theorem findIdx?_name_eq_some (h : (xs.map name).Nodup) {key : String} {i : Nat} :
    xs.findIdx? (fun y => name y == key) = some i ↔ ∃ x, xs[i]? = some x ∧ name x = key := by
  rw [List.findIdx?_eq_some_iff_getElem]
  constructor
  · rintro ⟨hLt, hAt, _⟩
    exact ⟨xs[i], List.getElem?_eq_getElem hLt, by simpa using hAt⟩
  · rintro ⟨x, hx, rfl⟩
    obtain ⟨hLt, rfl⟩ := List.getElem?_eq_some_iff.1 hx
    refine ⟨hLt, by simp, fun j hj hSame => ?_⟩
    have hBound : j < xs.length := Nat.lt_trans hj hLt
    have hName : (xs.map name)[j]? = (xs.map name)[i]? := by
      rw [List.getElem?_map, List.getElem?_map, hx, List.getElem?_eq_getElem hBound]
      exact congrArg some (by simpa using hSame)
    exact Nat.ne_of_lt hj ((List.getElem?_inj (by simpa using hBound) h).1 hName)

end Find

/-- With distinct names, a name before another has a smaller place. -/
theorem idxOf_lt_of_before {names before after : List String} {name earlier : String}
    (hNodup : names.Nodup) (hSplit : names = before ++ name :: after) (hMem : earlier ∈ before) :
    names.idxOf earlier < names.idxOf name := by
  have hApart : name ∉ before := by
    intro hBefore
    rw [hSplit] at hNodup
    exact (List.nodup_append.1 hNodup).2.2 name hBefore name List.mem_cons_self rfl
  have hLt := List.idxOf_lt_length_of_mem hMem
  have hName : names.idxOf name = before.length := by
    rw [hSplit, List.idxOf_append_of_notMem hApart, List.idxOf_cons_self, Nat.add_zero]
  have hEarlier : names.idxOf earlier = before.idxOf earlier := by
    rw [hSplit, List.idxOf_append_of_mem hMem]
  omega

namespace Table

variable {α : Type}

theorem get?_insertAll_of_notMem {key : String} (entries : List (String × α)) (table : Table α)
    (h : key ∉ entries.map Prod.fst) : (table.insertAll entries).get? key = table.get? key := by
  induction entries generalizing table with
  | nil => rfl
  | cons entry rest ih =>
      rw [List.map_cons, List.mem_cons, not_or] at h
      show ((table.insert entry.1 entry.2).insertAll rest).get? key = _
      rw [ih _ h.2, get?_insert, if_neg h.1]

/-- A table made from entries with distinct names has each of them. -/
theorem get?_insertAll {entries : List (String × α)} (h : (entries.map Prod.fst).Nodup)
    (table : Table α) {key : String} {value : α} (hMem : (key, value) ∈ entries) :
    (table.insertAll entries).get? key = some value := by
  induction entries generalizing table with
  | nil => simp at hMem
  | cons entry rest ih =>
      rw [List.map_cons, List.nodup_cons] at h
      show ((table.insert entry.1 entry.2).insertAll rest).get? key = _
      rcases List.mem_cons.1 hMem with rfl | hMem
      · rw [get?_insertAll_of_notMem rest _ h.1, get?_insert, if_pos rfl]
      · exact ih h.2 _ hMem

theorem get?_ofList {entries : List (String × α)} (h : (entries.map Prod.fst).Nodup)
    {key : String} {value : α} (hMem : (key, value) ∈ entries) :
    (ofList entries).get? key = some value :=
  get?_insertAll h empty hMem

/-- Whatever insertions leave under a name was there or was inserted. -/
theorem of_get?_insertAll {entries : List (String × α)} {table : Table α} {key : String}
    {value : α} (h : (table.insertAll entries).get? key = some value) :
    (key, value) ∈ entries ∨ table.get? key = some value := by
  induction entries generalizing table with
  | nil => exact .inr h
  | cons entry rest ih =>
      rcases ih h with hRest | hHead
      · exact .inl (List.mem_cons_of_mem _ hRest)
      · rw [get?_insert] at hHead
        split at hHead
        · rename_i hKey
          rw [hKey, ← Option.some.inj hHead]
          exact .inl (by simp)
        · exact .inr hHead

end Table

end WireSchema
