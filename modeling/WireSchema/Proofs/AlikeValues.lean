import WireSchema.Proofs.Indistinguishable

/-!
# Values that differ where nothing is read

Two values of a type are *alike* if they are equal but for places that an encoding never
looks at.  There are two kinds of such places.  Of a union it looks only at the member
that the discriminator selects, so the records given for a union may differ in all the
others.  And a program may ignore some fields altogether; which ones is a parameter.
Differences may be at any depth: below nested structures, in the items of arrays, and in
the structures inside a selected union member.

The relation is about declarations, directives and the values of symbols.  It does not
mention the steps that they compile to.

## Main results

* `AlikeOption.field`, `AlikeField.selected`: from a value to its fields, and from a union to
  the member that is selected.
* `AlikeField.sameNumber`, `AlikeField.copied`: what a program that reads a field sees of it.
-/

namespace WireSchema

/-- The type has this member under this name. -/
def Declarations.MemberAt (declarations : Declarations) (index : DirectiveIndex)
    (source name : String) (member : Member) : Prop :=
  member.name = name ∧ ∃ declaration, declarations.get? source = some declaration ∧
    member ∈ declaration.members index source

theorem Declarations.MemberAt.of_get? {declarations : Declarations} {index : DirectiveIndex}
    {source name : String} {member : Member} {declaration : Declaration}
    (h : declarations.MemberAt index source name member)
    (hGet : declarations.get? source = some declaration) :
    member ∈ declaration.members index source ∧ member.name = name := by
  obtain ⟨hName, other, hOther, hMember⟩ := h
  obtain rfl : declaration = other := Option.some.inj (hGet.symm.trans hOther)
  exact ⟨hMember, hName⟩

/-- A member is determined by its name, where only one has it. -/
theorem Declarations.MemberAt.eq_of_filter {declarations : Declarations} {index : DirectiveIndex}
    {source name : String} {member only : Member} {declaration : Declaration}
    (h : declarations.MemberAt index source name member)
    (hGet : declarations.get? source = some declaration)
    (hOnly : (declaration.members index source).filter (fun other => other.name = name) = [only]) :
    member = only := by
  obtain ⟨hMember, hName⟩ := h.of_get? hGet
  have hKept : member ∈ (declaration.members index source).filter fun other => other.name = name :=
    List.mem_filter.2 ⟨hMember, decide_eq_true hName⟩
  rw [hOnly] at hKept
  exact List.mem_singleton.1 hKept

/-- The member is a union whose discriminator is decisive. -/
structure Member.IsUnion (member : Member) (declarations : Declarations) (discriminator : String)
    (mapping : List (Literal × String)) (union : String) : Prop where
  decisive : member.decisive? = some (.unionVariant discriminator mapping)
  nested : member.nested? = some union
  kind : ∃ declaration, declarations.get? union = some declaration ∧ declaration.kind = .union

/-- The first pair of the mapping with this value is for this member. -/
def Encoder.Selects (encoder : Encoder) (selector : Int64) (mapping : List (Literal × String))
    (target : String) : Prop :=
  ∃ before literal after, mapping = before ++ (literal, target) :: after ∧
    encoder.valueOf literal = .ok selector ∧
    ∀ pair ∈ before, ∃ value, encoder.valueOf pair.1 = .ok value ∧ value ≠ selector

mutual

/-- Two values of a type are equal but for what is not read of them. -/
inductive Alike (declarations : Declarations) (index : DirectiveIndex) (encoder : Encoder)
    (ignored : String → String → Prop) : String → Value → Value → Prop
  | refl (source : String) (value : Value) :
      Alike declarations index encoder ignored source value value
  /-- Arrays of one length, with items that are alike. -/
  | array {source : String} {items others : List Value} : items.length = others.length →
      (∀ (i : Nat) (v w : Value), items[i]? = some v → others[i]? = some w →
        Alike declarations index encoder ignored source v w) →
      Alike declarations index encoder ignored source (.array items) (.array others)
  | record {source : String} {fields others : List (String × Value)} :
      (∀ name, AlikeAt declarations index encoder ignored source
        (.record fields) (.record others) name) →
      Alike declarations index encoder ignored source (.record fields) (.record others)

/-- Two values of a type are equal in one field but for what is not read of it. -/
inductive AlikeAt (declarations : Declarations) (index : DirectiveIndex) (encoder : Encoder)
    (ignored : String → String → Prop) : String → Value → Value → String → Prop
  | same {source name : String} {v w : Value} : v.field? name = w.field? name →
      AlikeAt declarations index encoder ignored source v w name
  | ignored {source name : String} {v w : Value} : ignored source name →
      AlikeAt declarations index encoder ignored source v w name
  /-- The field holds values of a nested type, which are alike. -/
  | nested {source name : String} {v w a b : Value} :
      v.field? name = some a → w.field? name = some b →
      (∃ member, declarations.MemberAt index source name member) →
      (∀ member, declarations.MemberAt index source name member → member.nested? ≠ none) →
      (∀ member nested, declarations.MemberAt index source name member →
        member.nested? = some nested → Alike declarations index encoder ignored nested a b) →
      AlikeAt declarations index encoder ignored source v w name
  /-- The field holds records for a union.  Its discriminator is the same in both, and the
  records are alike in the member that it selects. -/
  | union {source name : String} {v w : Value} {fields others : List (String × Value)} :
      v.field? name = some (.record fields) → w.field? name = some (.record others) →
      (∃ member, declarations.MemberAt index source name member) →
      (∀ member, declarations.MemberAt index source name member →
        ∃ discriminator mapping union, member.IsUnion declarations discriminator mapping union ∧
          v.field? discriminator = w.field? discriminator) →
      (∀ member discriminator mapping union selector target,
        declarations.MemberAt index source name member →
        member.IsUnion declarations discriminator mapping union →
        integerOf (v.field? discriminator) discriminator = .ok selector →
        encoder.Selects selector mapping target →
        AlikeAt declarations index encoder ignored union (.record fields) (.record others)
          target) →
      AlikeAt declarations index encoder ignored source v w name

end

/-- Values that may be absent are equal or alike. -/
def AlikeOption (declarations : Declarations) (index : DirectiveIndex) (encoder : Encoder)
    (ignored : String → String → Prop) (source : String) (a b : Option Value) : Prop :=
  a = b ∨ ∃ v w, a = some v ∧ b = some w ∧ Alike declarations index encoder ignored source v w

/-- Values that may be absent are equal or alike in one field. -/
def AlikeField (declarations : Declarations) (index : DirectiveIndex) (encoder : Encoder)
    (ignored : String → String → Prop) (source : String) (a b : Option Value)
    (name : String) : Prop :=
  fieldOf a name = fieldOf b name ∨
    ∃ v w, a = some v ∧ b = some w ∧
      AlikeAt declarations index encoder ignored source v w name

variable {declarations : Declarations} {index : DirectiveIndex} {encoder : Encoder}
  {ignored : String → String → Prop} {source name : String}

/-! ## Alike values -/

namespace Alike

variable {v w : Value}

/-- Values that are alike without being equal are no numbers. -/
theorem sameNumber (h : Alike declarations index encoder ignored source v w) :
    SameNumber (some v) (some w) := by
  cases h with
  | refl => exact SameNumber.refl _
  | array _ _ => exact fun _ => ⟨rfl, rfl⟩
  | record _ => exact fun _ => ⟨rfl, rfl⟩

theorem isRecord_eq (h : Alike declarations index encoder ignored source v w) :
    v.isRecord = w.isRecord := by
  cases h <;> rfl

theorem at_field (h : Alike declarations index encoder ignored source v w) (name : String) :
    AlikeAt declarations index encoder ignored source v w name := by
  cases h with
  | refl => exact .same rfl
  | array _ _ => exact .same rfl
  | record hFields => exact hFields name

theorem items (h : Alike declarations index encoder ignored source v w) (i : Nat) :
    AlikeOption declarations index encoder ignored source v.items[i]? w.items[i]? := by
  cases h with
  | refl => exact .inl rfl
  | record _ => exact .inl rfl
  | @array _ items others hLength hItems =>
      show AlikeOption declarations index encoder ignored source items[i]? others[i]?
      by_cases hi : i < items.length
      · have hItem := List.getElem?_eq_getElem hi
        have hOther := List.getElem?_eq_getElem (hLength ▸ hi : i < others.length)
        exact .inr ⟨_, _, hItem, hOther, hItems i _ _ hItem hOther⟩
      · have hItem := List.getElem?_eq_none (Nat.le_of_not_lt hi)
        have hOther := List.getElem?_eq_none (hLength ▸ Nat.le_of_not_lt hi : others.length ≤ i)
        exact .inl (hItem.trans hOther.symm)

/-- Records that differ in the value of one field are alike if they are alike in that field. -/
theorem of_field (before : List (String × Value)) {after : List (String × Value)} {name : String}
    {a b : Value}
    (h : AlikeAt declarations index encoder ignored source
      (.record (before ++ (name, a) :: after)) (.record (before ++ (name, b) :: after)) name) :
    Alike declarations index encoder ignored source
      (.record (before ++ (name, a) :: after)) (.record (before ++ (name, b) :: after)) := by
  refine .record fun other => ?_
  by_cases hName : other = name
  · rw [hName]
    exact h
  · refine .same ?_
    simp [Value.field?, List.lookup_append, List.lookup_cons, beq_eq_false_iff_ne.2 hName]

end Alike

namespace AlikeOption

variable {a b : Option Value}

theorem sameNumber (h : AlikeOption declarations index encoder ignored source a b) :
    SameNumber a b := by
  obtain rfl | ⟨v, w, rfl, rfl, hAlike⟩ := h
  · exact SameNumber.refl a
  · exact hAlike.sameNumber

theorem isRecord_eq (h : AlikeOption declarations index encoder ignored source a b) :
    a.all Value.isRecord = b.all Value.isRecord := by
  obtain rfl | ⟨v, w, rfl, rfl, hAlike⟩ := h
  · rfl
  · exact hAlike.isRecord_eq

theorem items (h : AlikeOption declarations index encoder ignored source a b) (i : Nat) :
    AlikeOption declarations index encoder ignored source (itemsOf a)[i]? (itemsOf b)[i]? := by
  obtain rfl | ⟨v, w, rfl, rfl, hAlike⟩ := h
  · exact .inl rfl
  · exact hAlike.items i

/-- Values that are alike are alike in every field. -/
theorem field (h : AlikeOption declarations index encoder ignored source a b) (name : String) :
    AlikeField declarations index encoder ignored source a b name := by
  obtain rfl | ⟨v, w, rfl, rfl, hAlike⟩ := h
  · exact .inl rfl
  · exact .inr ⟨v, w, rfl, rfl, hAlike.at_field name⟩

end AlikeOption

/-! ## Fields that are read -/

namespace AlikeField

variable {a b : Option Value}

/-- A field that is not ignored stands for the same numbers. -/
theorem sameNumber (h : AlikeField declarations index encoder ignored source a b name)
    (hRead : ¬ ignored source name) : SameNumber (fieldOf a name) (fieldOf b name) := by
  obtain hEq | ⟨v, w, rfl, rfl, hAlike⟩ := h
  · rw [hEq]
    exact SameNumber.refl _
  · show SameNumber (v.field? name) (w.field? name)
    cases hAlike with
    | same hEq =>
        rw [hEq]
        exact SameNumber.refl _
    | ignored hIgnored => exact absurd hIgnored hRead
    | nested hv hw hMember hNested hAlike =>
        obtain ⟨member, hMember⟩ := hMember
        obtain ⟨nested, hName⟩ := Option.ne_none_iff_exists'.1 (hNested member hMember)
        rw [hv, hw]
        exact (hAlike member nested hMember hName).sameNumber
    | union hv hw _ _ _ =>
        rw [hv, hw]
        exact fun _ => ⟨rfl, rfl⟩

/-- A field that is neither ignored nor a discriminated union is equal, or holds values of its
nested type that are alike. -/
theorem copied (h : AlikeField declarations index encoder ignored source a b name)
    {member : Member} (hMember : declarations.MemberAt index source name member)
    (hRead : ¬ ignored source name)
    (hPlain : ∀ discriminator mapping union,
      ¬ member.IsUnion declarations discriminator mapping union) :
    fieldOf a name = fieldOf b name ∨
      ∃ nested, member.nested? = some nested ∧
        AlikeOption declarations index encoder ignored nested (fieldOf a name)
          (fieldOf b name) := by
  obtain hEq | ⟨v, w, rfl, rfl, hAlike⟩ := h
  · exact .inl hEq
  · cases hAlike with
    | same hEq => exact .inl hEq
    | ignored hIgnored => exact absurd hIgnored hRead
    | @nested _ _ _ _ x y hv hw _ hNested hAlike =>
        obtain ⟨nested, hName⟩ := Option.ne_none_iff_exists'.1 (hNested member hMember)
        exact .inr ⟨nested, hName, .inr ⟨x, y, hv, hw, hAlike member nested hMember hName⟩⟩
    | union _ _ _ hUnion _ =>
        obtain ⟨discriminator, mapping, union, hIs, _⟩ := hUnion member hMember
        exact absurd hIs (hPlain discriminator mapping union)

/-- The records for a union are alike in the member that the discriminator selects. -/
theorem selected (h : AlikeField declarations index encoder ignored source a b name)
    {member : Member} (hMember : declarations.MemberAt index source name member)
    (hRead : ¬ ignored source name) {discriminator union target : String}
    {mapping : List (Literal × String)}
    (hUnion : member.IsUnion declarations discriminator mapping union) {selector : Int64}
    (hSelector : integerOf (fieldOf a discriminator) discriminator = .ok selector)
    (hSelects : encoder.Selects selector mapping target) :
    AlikeField declarations index encoder ignored union (fieldOf a name) (fieldOf b name)
      target := by
  obtain hEq | ⟨v, w, rfl, rfl, hAlike⟩ := h
  · rw [hEq]
    exact .inl rfl
  · show AlikeField declarations index encoder ignored union (v.field? name) (w.field? name) target
    cases hAlike with
    | same hEq =>
        rw [hEq]
        exact .inl rfl
    | ignored hIgnored => exact absurd hIgnored hRead
    | nested hv hw _ _ hAlike =>
        rw [hv, hw]
        exact .inr ⟨_, _, rfl, rfl, (hAlike member union hMember hUnion.nested).at_field target⟩
    | union hv hw _ _ hTarget =>
        rw [hv, hw]
        exact .inr ⟨_, _, rfl, rfl,
          hTarget member discriminator mapping union selector target hMember hUnion hSelector
            hSelects⟩

end AlikeField

end WireSchema
