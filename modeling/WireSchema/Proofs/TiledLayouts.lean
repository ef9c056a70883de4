import WireSchema.Proofs.LayoutExistence

/-!
# Packed layouts tile

Members of a packed structure lie side by side.  `Tiles` is what the running size of a layout
comes to: the first member begins at the start, each other where the one before it ends, and the
type ends where the last one does.  So every byte of the type belongs to exactly one member.
Members of a union all begin at its start, and the greatest decides its size.

Nothing here depends on how a program came about, only on names that are not used twice.

## Main results

* `tiles_of_fieldsFrom`, `unionSize_of_fieldsFrom`: where the members of either kind end up.
* `Tiles.existsUnique_owner`: a tiled range has one owner for each byte.
* `layouts_tile`: the layouts of a program.
-/

namespace WireSchema

namespace Table

variable {α : Type}

theorem put_of_notMem {key : String} {value : α} {entries : List (String × α)}
    (h : key ∉ entries.map Prod.fst) : put key value entries = entries ++ [(key, value)] := by
  induction entries with
  | nil => rfl
  | cons entry rest ih =>
      rw [List.map_cons, List.mem_cons, not_or] at h
      rw [put, if_neg (Ne.symm h.1), ih h.2, List.cons_append]

/-- Entries with new and distinct names go to the end, in order. -/
theorem entries_insertAll {entries : List (String × α)} {table : Table α}
    (h : ((table.entries ++ entries).map Prod.fst).Nodup) :
    (table.insertAll entries).entries = table.entries ++ entries := by
  induction entries generalizing table with
  | nil => exact (List.append_nil _).symm
  | cons entry rest ih =>
      have hEntries : (table.insert entry.1 entry.2).entries = table.entries ++ [entry] := by
        refine put_of_notMem fun hMem => ?_
        rw [List.map_append, List.nodup_append] at h
        exact h.2.2 entry.1 hMem entry.1 (by simp) rfl
      have hRest := @ih (table.insert entry.1 entry.2) (by simpa [hEntries] using h)
      rw [hEntries, List.append_assoc] at hRest
      exact hRest

/-- A table made from entries with distinct names lists just them. -/
theorem entries_ofList {entries : List (String × α)} (h : (entries.map Prod.fst).Nodup) :
    (ofList entries).entries = entries :=
  entries_insertAll h

theorem get?_of_mem {table : Table α} {key : String} {value : α}
    (h : (key, value) ∈ table.entries) : table.get? key = some value := by
  have hSame := get?_ofList table.nodup_keys h
  rw [get?, entries_ofList table.nodup_keys] at hSame
  exact hSame

end Table

/-! ## Tilings -/

/-- The byte is one of the member. -/
def FieldLayout.Owns (field : FieldLayout) (byte : Nat) : Prop :=
  field.offset ≤ byte ∧ byte < field.offset + field.size

/-- Members side by side from `start` to `stop`. -/
def Tiles : (start : Nat) → List (String × FieldLayout) → (stop : Nat) → Prop
  | start, [], stop => stop = start
  | start, (_, field) :: rest, stop => field.offset = start ∧ Tiles (start + field.size) rest stop

/-- The bytes that some members take together. -/
def bytesOf (fields : List (String × FieldLayout)) : Nat :=
  (fields.map fun pair => pair.2.size).sum

namespace Tiles

variable {fields : List (String × FieldLayout)} {start stop : Nat}

/-- The members end where their sizes add up to. -/
theorem stop_eq (h : Tiles start fields stop) : stop = start + bytesOf fields := by
  induction fields generalizing start with
  | nil => exact h
  | cons pair rest ih =>
      have hStop := ih h.2
      simp only [bytesOf, List.map_cons, List.sum_cons] at hStop ⊢
      omega

/-- A member begins where the sizes of those before it add up to. -/
theorem offset_eq {before after : List (String × FieldLayout)} {pair : String × FieldLayout}
    (h : Tiles start (before ++ pair :: after) stop) :
    pair.2.offset = start + bytesOf before := by
  induction before generalizing start with
  | nil => exact h.1
  | cons first rest ih =>
      have hOffset := ih h.2
      simp only [bytesOf, List.map_cons, List.sum_cons] at hOffset ⊢
      omega

theorem start_le (h : Tiles start fields stop) {pair : String × FieldLayout}
    (hPair : pair ∈ fields) : start ≤ pair.2.offset := by
  obtain ⟨before, after, rfl⟩ := List.append_of_mem hPair
  have hOffset := h.offset_eq
  omega

theorem le_stop (h : Tiles start fields stop) {pair : String × FieldLayout}
    (hPair : pair ∈ fields) : pair.2.offset + pair.2.size ≤ stop := by
  obtain ⟨before, after, rfl⟩ := List.append_of_mem hPair
  have hOffset := h.offset_eq
  have hStop := h.stop_eq
  simp only [bytesOf, List.map_append, List.map_cons, List.sum_append, List.sum_cons]
    at hOffset hStop
  omega

/-- Every byte of a tiled range belongs to one member, and to no other. -/
theorem existsUnique_owner (h : Tiles start fields stop) {byte : Nat} (hStart : start ≤ byte)
    (hStop : byte < stop) : ∃! pair, pair ∈ fields ∧ pair.2.Owns byte := by
  induction fields generalizing start with
  | nil =>
      have hEmpty : stop = start := h
      omega
  | cons pair rest ih =>
      have hOffset : pair.2.offset = start := h.1
      by_cases hFirst : byte < start + pair.2.size
      · refine ⟨pair, ⟨List.mem_cons_self, by omega, by omega⟩, fun other ⟨hOther, hOwns⟩ => ?_⟩
        cases List.mem_cons.1 hOther with
        | inl hSame => exact hSame
        | inr hRest =>
            -- The others begin where this one ends.
            have hLe := start_le h.2 hRest
            unfold FieldLayout.Owns at hOwns
            omega
      · obtain ⟨owner, ⟨hOwner, hOwns⟩, hOnly⟩ := ih h.2 (Nat.not_lt.1 hFirst)
        refine ⟨owner, ⟨List.mem_cons_of_mem _ hOwner, hOwns⟩, fun other ⟨hOther, hAlso⟩ => ?_⟩
        cases List.mem_cons.1 hOther with
        | inl hSame =>
            subst hSame
            unfold FieldLayout.Owns at hAlso
            omega
        | inr hRest => exact hOnly other ⟨hRest, hAlso⟩

end Tiles

/-! ## The members of one type -/

namespace Layouts

variable {layouts final : Layouts} {primitives : Primitives} {owner : String}
  {members : List PackedMember} {size total : Nat} {fields : List (String × FieldLayout)}

theorem tiles_of_fieldsFrom
    (h : layouts.fieldsFrom primitives .struct owner size members = .ok (fields, total)) :
    Tiles size fields total := by
  induction members generalizing size fields with
  | nil =>
      cases h
      rfl
  | cons member rest ih =>
      obtain ⟨field, tail, total, hField, hTail, hResult⟩ := fieldsFrom_cons.1 h
      cases hResult
      have hOffset : field.offset = size := offset_of_fieldAt hField
      have hNext : max size (field.offset + field.size) = size + field.size := by omega
      rw [hNext] at hTail
      exact ⟨hOffset, ih hTail⟩

/-- The members of a union begin at its start.  It ends with the greatest of them. -/
theorem unionSize_of_fieldsFrom
    (h : layouts.fieldsFrom primitives .union owner size members = .ok (fields, total)) :
    (∀ pair ∈ fields, pair.2.offset = 0) ∧
      total = (fields.map fun pair => pair.2.size).foldl max size := by
  induction members generalizing size fields with
  | nil =>
      cases h
      exact ⟨by simp, rfl⟩
  | cons member rest ih =>
      obtain ⟨field, tail, total, hField, hTail, hResult⟩ := fieldsFrom_cons.1 h
      cases hResult
      have hOffset : field.offset = 0 := offset_of_fieldAt hField
      rw [hOffset, Nat.zero_add] at hTail
      obtain ⟨hOffsets, hTotal⟩ := ih hTail
      exact ⟨List.forall_mem_cons.2 ⟨hOffset, hOffsets⟩, hTotal⟩

/-- The size of one value, if the primitive or the record has one. -/
def elementSize? (layouts : Layouts) (primitives : Primitives) : Representation → Option Nat
  | .primitive spec => (primitives.resolve? spec).map Primitive.size
  | .record ref => (layouts.get? ref.source).map TypeLayout.size

/-- The place has the extent of the member: as many values as the array has, or a descriptor
for each. -/
structure Measures (layouts : Layouts) (primitives : Primitives) (member : PackedMember)
    (field : FieldLayout) : Prop where
  count : field.count = member.arrayLength.getD 1
  element : layouts.elementSize? primitives member.placement.representation =
    some field.elementSize
  value : ∀ representation, member.placement = .value representation →
    field.size = field.elementSize * field.count
  descriptor : ∀ representation, member.placement = .descriptor representation →
    field.size = 4 * field.count

theorem elementSize?_of_elementOf {representation : Representation} {name : String}
    {element : Nat × Option ScalarClass}
    (h : layouts.elementOf primitives owner name representation = .ok element) :
    layouts.elementSize? primitives representation = some element.1 := by
  unfold elementOf at h
  unfold elementSize?
  split at h
  · split at h
    · rename_i hPrimitive
      cases h
      simp [hPrimitive]
    · cases h
  · split at h
    · rename_i hLayout
      cases h
      simp [hLayout]
    · cases h

theorem measures_of_fieldAt {member : PackedMember} {offset : Nat} {field : FieldLayout}
    (h : layouts.fieldAt primitives owner member offset = .ok field) :
    layouts.Measures primitives member field := by
  cases hPlacement : member.placement with
  | value representation =>
      obtain ⟨element, hElement, rfl⟩ := (fieldAt_value hPlacement).1 h
      refine ⟨rfl, ?_, fun _ _ => rfl, fun _ hOther => ?_⟩
      · rw [hPlacement]
        exact elementSize?_of_elementOf hElement
      · simp [hPlacement] at hOther
  | descriptor representation =>
      obtain ⟨element, hElement, rfl⟩ := (fieldAt_descriptor hPlacement).1 h
      refine ⟨rfl, ?_, fun _ hOther => ?_, fun _ _ => rfl⟩
      · rw [hPlacement]
        exact elementSize?_of_elementOf hElement
      · simp [hPlacement] at hOther

/-! ## All types -/

/-- The layout has the members of the type, in their order and side by side or on top of each
other, each as large as `final` says. -/
structure Packs (final : Layouts) (primitives : Primitives) (type : PackedType)
    (layout : TypeLayout) : Prop where
  kind : layout.kind = type.kind
  names : layout.fields.keys = type.members.map PackedMember.name
  measures : ∀ member ∈ type.members, ∃ field,
    layout.fields.get? member.name = some field ∧ final.Measures primitives member field
  offset_eq : type.kind = .struct → ∀ before pair after,
    layout.fields.entries = before ++ pair :: after → pair.2.offset = bytesOf before
  struct_size : type.kind = .struct → layout.size = bytesOf layout.fields.entries
  covered : type.kind = .struct → ∀ byte < layout.size,
    ∃! pair, pair ∈ layout.fields.entries ∧ pair.2.Owns byte
  within : ∀ pair ∈ layout.fields.entries, pair.2.offset + pair.2.size ≤ layout.size
  offset_zero : type.kind = .union → ∀ pair ∈ layout.fields.entries, pair.2.offset = 0
  union_size : type.kind = .union →
    layout.size = ((layout.fields.entries.map fun pair => pair.2.size).max?).getD 0

/-- The entries of a layout are the places of the members. -/
theorem fieldsFrom_of_typeLayout {type : PackedType} {layout : TypeLayout}
    (h : layouts.typeLayout primitives type = .ok layout)
    (hNames : (type.members.map PackedMember.name).Nodup) :
    layout.kind = type.kind ∧
      layouts.fieldsFrom primitives type.kind type.source 0 type.members =
        .ok (layout.fields.entries, layout.size) := by
  obtain ⟨⟨fields, size⟩, hFields, hLayout⟩ := bind_eq_ok.1 h
  obtain rfl := pure_eq_ok.1 hLayout
  rw [← map_fst_fieldsFrom hFields] at hNames
  refine ⟨rfl, ?_⟩
  rw [Table.entries_ofList hNames]
  exact hFields

/-- A layout that is computed from a table packs the type. -/
theorem packs_of_typeLayout {type : PackedType} {layout : TypeLayout}
    (h : layouts.typeLayout primitives type = .ok layout)
    (hNames : (type.members.map PackedMember.name).Nodup) :
    layouts.Packs primitives type layout := by
  obtain ⟨hKind, hFields⟩ := fieldsFrom_of_typeLayout h hNames
  have hTiles : type.kind = .struct → Tiles 0 layout.fields.entries layout.size := by
    intro hStruct
    rw [hStruct] at hFields
    exact tiles_of_fieldsFrom hFields
  have hUnion : type.kind = .union → (∀ pair ∈ layout.fields.entries, pair.2.offset = 0) ∧
      layout.size = ((layout.fields.entries.map fun pair => pair.2.size).max?).getD 0 := by
    intro hUnion
    rw [hUnion] at hFields
    obtain ⟨hOffsets, hSize⟩ := unionSize_of_fieldsFrom hFields
    rw [List.foldl_max, Nat.zero_max] at hSize
    exact ⟨hOffsets, hSize⟩
  refine ⟨hKind, map_fst_fieldsFrom hFields, ?measures, ?offset_eq, ?struct_size, ?covered,
    ?within, fun hKind => (hUnion hKind).1, fun hKind => (hUnion hKind).2⟩
  case measures =>
    intro member hMember
    obtain ⟨field, hPair, offset, hField⟩ := exists_place_of_mem hFields hMember
    exact ⟨field, Table.get?_of_mem hPair, measures_of_fieldAt hField⟩
  case offset_eq =>
    intro hStruct before pair after hSplit
    have hSplitTiles := hTiles hStruct
    rw [hSplit] at hSplitTiles
    rw [hSplitTiles.offset_eq, Nat.zero_add]
  case struct_size =>
    intro hStruct
    rw [(hTiles hStruct).stop_eq, Nat.zero_add]
  case covered =>
    intro hStruct byte hByte
    exact (hTiles hStruct).existsUnique_owner (Nat.zero_le byte) hByte
  case within =>
    intro pair hPair
    cases hCase : type.kind with
    | struct => exact (hTiles hCase).le_stop hPair
    | union =>
        obtain ⟨hOffsets, hSize⟩ := hUnion hCase
        rw [hOffsets pair hPair, hSize, Nat.zero_add]
        exact List.le_max?_getD_of_mem (List.mem_map_of_mem hPair)

/-- **Packed layouts tile**: whatever the program, if no two of its types and no two members of a
type have the same name, its layouts pack each type.  Sizes of records are those of the whole
table. -/
theorem layouts_tile {program : Program} (h : ofProgram primitives program = .ok final)
    (hSources : (program.types.map PackedType.source).Nodup)
    (hNames : ∀ type ∈ program.types, (type.members.map PackedMember.name).Nodup) :
    final.keys = program.types.map PackedType.source ∧
      ∀ type ∈ program.types, ∃ layout, final.get? type.source = some layout ∧
        final.Packs primitives type layout := by
  refine ⟨?_, fun type hType => ?_⟩
  · exact keys_addTypes h hSources fun type _ hKey => by cases hKey
  · obtain ⟨layout, hGet, hLayout⟩ := ofProgram_ok h hSources type hType
    exact ⟨layout, hGet, packs_of_typeLayout hLayout (hNames type hType)⟩

end Layouts

namespace Sample

open Layouts (ofProgram)

/-- A union of a number and three shorter ones, and a structure around two of them and two
descriptors.  No request compiles to a descriptor that is repeated. -/
def shelves : Program :=
  let crate : RecordRef := ⟨"Crate", "union PackedCrate", .union⟩
  { service := "Shelves", includes := [], roots := ["Shelf"]
    types :=
      [ ⟨crate.source, crate.target, .union,
          [ ⟨"serial", .value (.primitive "uint32_t"), none, none⟩
          , ⟨"weights", .value (.primitive "const uint16_t"), some 3, none⟩ ]⟩
      , ⟨"Shelf", "struct PackedShelf", .struct,
          [ ⟨"kind", .value (.primitive "uint8_t"), none, none⟩
          , ⟨"crates", .value (.record crate), some 2, none⟩
          , ⟨"labels", .descriptor (.primitive "char"), some 2, none⟩ ]⟩ ]
    sizeFunctions := [], encodeFunctions := [], entryPoints := [] }

/-- A crate takes six bytes, so a shelf takes one, twice six and twice four. -/
theorem shelves_tile :
    ∃ final, ofProgram .standard shelves = .ok final ∧
      final.keys = ["Crate", "Shelf"] ∧
      (final.get? "Crate").map TypeLayout.size = some 6 ∧
      (final.get? "Shelf").map TypeLayout.size = some 21 ∧
      ∀ type ∈ shelves.types, ∃ layout, final.get? type.source = some layout ∧
        final.Packs .standard type layout := by
  have hSizes : (ofProgram .standard shelves).toOption.map (fun final =>
      ((final.get? "Crate").map TypeLayout.size, (final.get? "Shelf").map TypeLayout.size)) =
      some (some 6, some 21) := by decide +kernel
  obtain ⟨final, hFinal, hPair⟩ := Option.map_eq_some_iff.1 hSizes
  have hOk := eq_ok_of_toOption hFinal
  obtain ⟨hKeys, hPacks⟩ := Layouts.layouts_tile hOk (by decide) (by decide)
  exact ⟨final, hOk, hKeys, (Prod.mk.inj hPair).1, (Prod.mk.inj hPair).2, hPacks⟩

end Sample

end WireSchema
