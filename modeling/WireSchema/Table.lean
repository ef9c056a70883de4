/-!
# Tables keyed by name

A `Table` lists values under distinct names, in the order in which the names were
first inserted.  Inserting under a name that is already listed keeps its place and
replaces its value.

## Main results

* `Table.get?_insert`: a look-up after an insertion.
* `Table.keys_insert`: the names after an insertion; a new name goes to the end.
-/

namespace WireSchema

/-- Values under distinct names, in the order of first insertion. -/
structure Table (α : Type) where
  entries : List (String × α)
  nodup_keys : (entries.map Prod.fst).Nodup

namespace Table

variable {α : Type}

/-- The list of entries after an insertion. -/
def put (key : String) (value : α) : List (String × α) → List (String × α)
  | [] => [(key, value)]
  | entry :: rest =>
    if entry.1 = key then (key, value) :: rest else entry :: put key value rest

theorem map_fst_put (key : String) (value : α) (entries : List (String × α)) :
    (put key value entries).map Prod.fst =
      if key ∈ entries.map Prod.fst then entries.map Prod.fst
      else entries.map Prod.fst ++ [key] := by
  induction entries with
  | nil => simp [put]
  | cons entry rest ih =>
    by_cases h : entry.1 = key
    · simp [put, h]
    · have h' : ¬ key = entry.1 := fun e => h e.symm
      by_cases hk : key ∈ rest.map Prod.fst
      · simp [put, h, h', ih, hk]
      · simp [put, h, h', ih, hk]

theorem nodup_put {entries : List (String × α)} (h : (entries.map Prod.fst).Nodup)
    (key : String) (value : α) : ((put key value entries).map Prod.fst).Nodup := by
  rw [map_fst_put]
  split
  · exact h
  · rename_i hk
    refine List.nodup_append.2 ⟨h, by simp, ?_⟩
    intro a ha b hb
    rw [List.mem_singleton.1 hb]
    exact fun e => hk (e ▸ ha)

/-- The table without entries. -/
def empty : Table α := ⟨[], List.nodup_nil⟩

instance : Inhabited (Table α) := ⟨empty⟩

/-- The table with `value` under `key`. -/
def insert (table : Table α) (key : String) (value : α) : Table α :=
  ⟨put key value table.entries, nodup_put table.nodup_keys key value⟩

/-- Insertion of all entries of a list, in order. -/
def insertAll (table : Table α) (entries : List (String × α)) : Table α :=
  entries.foldl (fun table entry => table.insert entry.1 entry.2) table

/-- The table of a list of entries; the last value under a name counts. -/
def ofList (entries : List (String × α)) : Table α :=
  empty.insertAll entries

/-- The value under `key`. -/
def get? (table : Table α) (key : String) : Option α :=
  table.entries.lookup key

/-- The names, in order. -/
def keys (table : Table α) : List String :=
  table.entries.map Prod.fst

/-- The number of names. -/
def size (table : Table α) : Nat :=
  table.entries.length

/-- Whether no name is listed. -/
def isEmpty (table : Table α) : Bool :=
  table.entries.isEmpty

theorem keys_nodup (table : Table α) : table.keys.Nodup :=
  table.nodup_keys

@[simp]
theorem get?_empty (key : String) : (empty : Table α).get? key = none := rfl

theorem lookup_put (key : String) (value : α) (entries : List (String × α)) (other : String) :
    (put key value entries).lookup other =
      if other = key then some value else entries.lookup other := by
  induction entries with
  | nil =>
    by_cases h : other = key
    · simp [put, h]
    · simp [put, List.lookup_cons, h, beq_eq_false_iff_ne.2 h]
  | cons entry rest ih =>
    obtain ⟨name, old⟩ := entry
    by_cases hn : name = key
    · subst hn
      by_cases h : other = name
      · simp [put, h]
      · simp [put, List.lookup_cons, h, beq_eq_false_iff_ne.2 h]
    · by_cases h : other = name
      · subst h
        simp [put, hn]
      · simp [put, hn, List.lookup_cons, beq_eq_false_iff_ne.2 h, ih]

/-- A look-up after an insertion finds the new value under its name and what was there
under every other name. -/
theorem get?_insert (table : Table α) (key other : String) (value : α) :
    (table.insert key value).get? other = if other = key then some value else table.get? other :=
  lookup_put key value table.entries other

theorem keys_insert (table : Table α) (key : String) (value : α) :
    (table.insert key value).keys =
      if key ∈ table.keys then table.keys else table.keys ++ [key] :=
  map_fst_put key value table.entries

theorem mem_keys_of_get? {table : Table α} {key : String} {value : α}
    (h : table.get? key = some value) : key ∈ table.keys := by
  unfold get? at h
  unfold keys
  generalize table.entries = entries at h
  induction entries with
  | nil => simp at h
  | cons entry rest ih =>
    obtain ⟨name, old⟩ := entry
    by_cases hk : key = name
    · simp [hk]
    · simp only [List.lookup_cons, beq_eq_false_iff_ne.2 hk] at h
      exact List.mem_cons_of_mem _ (ih h)

end Table

end WireSchema
