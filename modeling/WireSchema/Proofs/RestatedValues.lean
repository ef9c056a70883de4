import Mathlib.Logic.Relation
import WireSchema.Proofs.AlikeValues

/-!
# Ways to write one source value

What a value says is read off it field by field: of a name the last field of a record
counts, and what is absent reads as zero.  So the same can be written in many ways.
`Restates` lists the single rewritings, at any depth: to reorder a record, to drop a field
that a later one hides or that the type does not declare, and to leave out a member or a
last item that is an explicit zero.  `SaysSame` is any number of rewritings, back and
forth.

What an explicit zero looks like depends on what is read there: a number, an array or a
record.  `ValueType` is what the declarations and directives say about that.

## Main results

* `Restated.field`, `Restated.item`: from a value and its rewriting to their members and
  their items.
* `Restated.sameNumber`, `Restated.isRecord_eq`: what is seen of the two where a number or a
  record is read.
-/

namespace WireSchema

/-! ## Types of values -/

/-- What a source value is a value of: a structure or union, by its name, or a number; or an
array of these. -/
structure ValueType where
  aggregate : Option String
  isArray : Bool
  deriving DecidableEq

/-- Values of a structure or union. -/
def ValueType.record (source : String) : ValueType := ⟨some source, false⟩

/-- Numbers. -/
def ValueType.number : ValueType := ⟨none, false⟩

/-- What an array holds. -/
def ValueType.element (type : ValueType) : ValueType :=
  { type with isArray := false }

/-- The explicit zero. -/
def ValueType.zero (type : ValueType) : Value :=
  if type.isArray then .array []
  else if type.aggregate.isSome then .record []
  else .int 0

/-- What the values of a member are.  An overridden type holds numbers, whatever the member is
declared as. -/
def Member.valueType (member : Member) : ValueType :=
  if member.typeOverride?.isSome then ⟨none, member.arrayLength?.isSome⟩
  else ⟨member.nested?, member.arrayLength?.isSome || member.lengthField?.isSome⟩

/-! ## Rewritings -/

/-- The second value says what the first says, by one rewriting at some depth. -/
inductive Restates (declarations : Declarations) (index : DirectiveIndex) :
    ValueType → Value → Value → Prop
  /-- The fields of a record in another order. -/
  | reordered {type : ValueType} {fields others : List (String × Value)} :
      fields.Perm others → (fields.map Prod.fst).Nodup →
      Restates declarations index type (.record fields) (.record others)
  /-- Without a field that a later one of the same name hides. -/
  | shadowed {type : ValueType} {before after : List (String × Value)} {name : String}
      {value : Value} :
      name ∈ after.map Prod.fst →
      Restates declarations index type (.record (before ++ (name, value) :: after))
        (.record (before ++ after))
  /-- Without a field that the type does not declare. -/
  | undeclared {type : ValueType} {before after : List (String × Value)} {name : String}
      {value : Value} :
      (∀ source member, type.aggregate = some source →
        ¬ declarations.MemberAt index source name member) →
      Restates declarations index type (.record (before ++ (name, value) :: after))
        (.record (before ++ after))
  /-- Without a member that is zero. -/
  | zeroMember {type : ValueType} {source name : String} {member : Member}
      {before after : List (String × Value)} :
      type.aggregate = some source → declarations.MemberAt index source name member →
      name ∉ before.map Prod.fst → name ∉ after.map Prod.fst →
      Restates declarations index type
        (.record (before ++ (name, member.valueType.zero) :: after)) (.record (before ++ after))
  /-- Without a last item that is zero. -/
  | zeroItem {type : ValueType} {items : List Value} :
      Restates declarations index type (.array (items ++ [type.element.zero])) (.array items)
  /-- A rewriting in a member. -/
  | member {type : ValueType} {source name : String} {member : Member}
      {before after : List (String × Value)} {v w : Value} :
      type.aggregate = some source → declarations.MemberAt index source name member →
      Restates declarations index member.valueType v w →
      Restates declarations index type (.record (before ++ (name, v) :: after))
        (.record (before ++ (name, w) :: after))
  /-- A rewriting in an item. -/
  | item {type : ValueType} {before after : List Value} {v w : Value} :
      Restates declarations index type.element v w →
      Restates declarations index type (.array (before ++ v :: after))
        (.array (before ++ w :: after))

/-- Values of a structure that say the same: one comes from the other by any number of
rewritings, each forth or back. -/
def SaysSame (declarations : Declarations) (index : DirectiveIndex) (source : String) :
    Value → Value → Prop :=
  Relation.EqvGen (Restates declarations index (.record source))

/-- Values that may be absent, and differ by one rewriting or by an explicit zero. -/
inductive Restated (declarations : Declarations) (index : DirectiveIndex) (type : ValueType) :
    Option Value → Option Value → Prop
  | same (a : Option Value) : Restated declarations index type a a
  | present {v w : Value} : Restates declarations index type v w →
      Restated declarations index type (some v) (some w)
  | zero : Restated declarations index type (some type.zero) none

variable {declarations : Declarations} {index : DirectiveIndex} {type : ValueType}

/-! ## Fields of records -/

namespace Value

variable {before after fields others : List (String × Value)} {name key : String} {value : Value}

theorem field?_append (before after : List (String × Value)) (key : String) :
    (record (before ++ after)).field? key =
      ((record after).field? key).or ((record before).field? key) := by
  simp only [field?, List.reverse_append, List.lookup_append]

theorem field?_cons_self (name : String) (value : Value) (after : List (String × Value)) :
    (record ((name, value) :: after)).field? name =
      ((record after).field? name).or (some value) := by
  simp [field?, List.lookup_append]

theorem field?_cons_of_ne (h : key ≠ name) (value : Value) (after : List (String × Value)) :
    (record ((name, value) :: after)).field? key = (record after).field? key := by
  simp [field?, List.lookup_append, List.lookup_cons, beq_eq_false_iff_ne.2 h]

theorem field?_eq_none : (record fields).field? name = none ↔ name ∉ fields.map Prod.fst := by
  simp only [field?, List.lookup_eq_none_iff, List.mem_reverse, List.mem_map, not_exists, not_and]
  grind

/-- A field is hidden by a later one of its name. -/
theorem field?_shadowed (h : name ∈ after.map Prod.fst) (value : Value) (key : String) :
    (record (before ++ (name, value) :: after)).field? key =
      (record (before ++ after)).field? key := by
  rw [field?_append, field?_append]
  by_cases hKey : key = name
  · obtain ⟨later, hLater⟩ := Option.ne_none_iff_exists'.1 (mt field?_eq_none.1 (not_not_intro h))
    rw [hKey, field?_cons_self, hLater]
    rfl
  · rw [field?_cons_of_ne hKey]

theorem field?_append_cons_of_ne (h : key ≠ name) (value : Value) :
    (record (before ++ (name, value) :: after)).field? key =
      (record (before ++ after)).field? key := by
  rw [field?_append, field?_append, field?_cons_of_ne h]

/-- The last field of a name counts. -/
theorem field?_append_cons_self (h : name ∉ after.map Prod.fst) (value : Value) :
    (record (before ++ (name, value) :: after)).field? name = some value := by
  rw [field?_append, field?_cons_self, field?_eq_none.2 h]
  rfl

theorem field?_of_mem (hNames : (fields.map Prod.fst).Nodup) (hMem : (name, value) ∈ fields) :
    (record fields).field? name = some value := by
  obtain ⟨before, after, rfl⟩ := List.append_of_mem hMem
  rw [List.map_append, List.map_cons, List.nodup_append] at hNames
  exact field?_append_cons_self (List.nodup_cons.1 hNames.2.1).1 value

/-- The order of fields with distinct names does not count. -/
theorem field?_perm (hPerm : fields.Perm others) (hNames : (fields.map Prod.fst).Nodup)
    (name : String) : (record fields).field? name = (record others).field? name := by
  have hOthers := (hPerm.map Prod.fst).nodup_iff.1 hNames
  by_cases hName : name ∈ fields.map Prod.fst
  · obtain ⟨⟨_, value⟩, hMem, rfl⟩ := List.mem_map.1 hName
    rw [field?_of_mem hNames hMem, field?_of_mem hOthers (hPerm.mem_iff.1 hMem)]
  · rw [field?_eq_none.2 hName, field?_eq_none.2 fun hMem =>
      hName ((hPerm.map Prod.fst).mem_iff.2 hMem)]

end Value

/-! ## What is seen of a rewriting -/

@[simp] theorem ValueType.items_zero (type : ValueType) : itemsOf (some type.zero) = [] := by
  unfold ValueType.zero
  split
  · rfl
  · split <;> rfl

@[simp] theorem ValueType.field_zero (type : ValueType) (name : String) :
    fieldOf (some type.zero) name = none := by
  unfold ValueType.zero
  split
  · rfl
  · split <;> rfl

namespace Restates

variable {v w : Value}

/-- Only records and arrays are rewritten, and no number is read of these. -/
theorem sameNumber (h : Restates declarations index type v w) : SameNumber (some v) (some w) := by
  cases h <;> exact fun _ => ⟨rfl, rfl⟩

theorem isRecord_eq (h : Restates declarations index type v w) : v.isRecord = w.isRecord := by
  cases h <;> rfl

theorem item_at (h : Restates declarations index type v w) (i : Nat) :
    Restated declarations index type.element v.items[i]? w.items[i]? := by
  cases h with
  | reordered _ _ => exact .same none
  | shadowed _ => exact .same none
  | undeclared _ => exact .same none
  | zeroMember _ _ _ _ => exact .same none
  | member _ _ _ => exact .same none
  | @zeroItem _ items =>
      show Restated declarations index type.element (items ++ [type.element.zero])[i]? items[i]?
      rcases Nat.lt_trichotomy i items.length with hLt | rfl | hGt
      · rw [List.getElem?_append_left hLt]
        exact .same _
      · rw [List.getElem?_concat_length, List.getElem?_eq_none (Nat.le_refl _)]
        exact .zero
      · rw [List.getElem?_eq_none (Nat.le_of_lt hGt),
          List.getElem?_eq_none (by rw [List.length_append]; exact hGt)]
        exact .same none
  | @item _ before after a b hItem =>
      show Restated declarations index type.element (before ++ a :: after)[i]?
        (before ++ b :: after)[i]?
      rcases Nat.lt_trichotomy i before.length with hLt | rfl | hGt
      · rw [List.getElem?_append_left hLt, List.getElem?_append_left hLt]
        exact .same _
      · simpa using .present hItem
      · obtain ⟨j, rfl⟩ : ∃ j, i = before.length + (j + 1) := ⟨i - before.length - 1, by omega⟩
        rw [List.getElem?_append_right (Nat.le_add_right _ _),
          List.getElem?_append_right (Nat.le_add_right _ _), Nat.add_sub_cancel_left]
        exact .same _

/-- The rewriting reaches a member of a structure, if no other has its name, as a rewriting or an
explicit zero of the member's own type. -/
theorem field_at (h : Restates declarations index type v w) {source name : String}
    (hType : type.aggregate = some source) {member : Member}
    (hMember : declarations.MemberAt index source name member)
    (hOnly : ∀ other, declarations.MemberAt index source name other → other = member) :
    Restated declarations index member.valueType (v.field? name) (w.field? name) := by
  cases h with
  | reordered hPerm hNames =>
      rw [Value.field?_perm hPerm hNames]
      exact .same _
  | shadowed hLater =>
      rw [Value.field?_shadowed hLater]
      exact .same _
  | @undeclared _ _ _ other _ hNone =>
      have hNe : name ≠ other := fun hEq => hNone source member hType (hEq ▸ hMember)
      rw [Value.field?_append_cons_of_ne hNe]
      exact .same _
  | @zeroMember _ owner other found before after hOwner hFound hBefore hAfter =>
      by_cases hName : name = other
      · subst hName
        obtain rfl : source = owner := Option.some.inj (hType.symm.trans hOwner)
        obtain rfl := hOnly found hFound
        have hAbsent : (Value.record (before ++ after)).field? name = none := by
          rw [Value.field?_append, Value.field?_eq_none.2 hAfter, Value.field?_eq_none.2 hBefore]
          rfl
        rw [Value.field?_append_cons_self hAfter, hAbsent]
        exact .zero
      · rw [Value.field?_append_cons_of_ne hName]
        exact .same _
  | zeroItem => exact .same none
  | item _ => exact .same none
  | @member _ owner other found before after a b hOwner hFound hInner =>
      by_cases hName : name = other
      · subst hName
        obtain rfl : source = owner := Option.some.inj (hType.symm.trans hOwner)
        obtain rfl := hOnly found hFound
        by_cases hLater : name ∈ after.map Prod.fst
        · rw [Value.field?_shadowed hLater, Value.field?_shadowed hLater]
          exact .same _
        · rw [Value.field?_append_cons_self hLater, Value.field?_append_cons_self hLater]
          exact .present hInner
      · rw [Value.field?_append_cons_of_ne hName, Value.field?_append_cons_of_ne hName]
        exact .same _

end Restates

namespace Restated

variable {a b : Option Value}

/-- Where a number is read, zero stands for an absent value. -/
theorem sameNumber (h : Restated declarations index .number a b) : SameNumber a b := by
  cases h with
  | same => exact SameNumber.refl a
  | present hRestates => exact hRestates.sameNumber
  | zero => exact fun field => ⟨rfl, congrArg Except.ok (by decide +kernel)⟩

/-- Where a record is read, an empty one stands for an absent one. -/
theorem isRecord_eq {source : String} (h : Restated declarations index (.record source) a b) :
    a.all Value.isRecord = b.all Value.isRecord := by
  cases h with
  | same => rfl
  | present hRestates => exact hRestates.isRecord_eq
  | zero => rfl

theorem item (h : Restated declarations index type a b) (i : Nat) :
    Restated declarations index type.element (itemsOf a)[i]? (itemsOf b)[i]? := by
  cases h with
  | same => exact .same _
  | present hRestates => exact hRestates.item_at i
  | zero =>
      rw [ValueType.items_zero]
      exact .same none

/-- What holds of a value and its rewriting holds of their members. -/
theorem field (h : Restated declarations index type a b) {source name : String}
    (hType : type.aggregate = some source) {member : Member}
    (hMember : declarations.MemberAt index source name member)
    (hOnly : ∀ other, declarations.MemberAt index source name other → other = member) :
    Restated declarations index member.valueType (fieldOf a name) (fieldOf b name) := by
  cases h with
  | same => exact .same _
  | present hRestates => exact hRestates.field_at hType hMember hOnly
  | zero =>
      rw [ValueType.field_zero]
      exact .same none

end Restated

end WireSchema
