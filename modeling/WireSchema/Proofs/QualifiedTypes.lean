import Mathlib.Data.List.TakeWhile
import WireSchema.Packing.Primitive

/-!
# Qualified types

A header may put `const` and `volatile` before a type, as often and in whatever order it likes,
with blanks of any kind between them.  None of this says what the type is.  So wherever a type
is looked up, leading qualifiers and the blanks at both ends are taken away first.

What is left is bare: no blank at its ends and no qualifier before it.  A bare type is left as
it is, so it does not matter how often qualifiers are taken away.

## Main results

* `Text.isTrimmed_trim`: what trimming leaves.
* `dropQualifiers_trim_append`, `unqualified_qualify`: one more qualifier, and any number.
* `isBare_unqualified`, `unqualified_eq_self_iff`: what taking qualifiers away leaves, and what
  it leaves alone.
* `qualifiers_are_ignored`: types of members, nested types and primitive types.
-/

namespace WireSchema

/-! ## Trimmed text -/

namespace Text

variable {blanks cs rest : List Char}

/-- The text has a character that is not blank. -/
def Visible (cs : List Char) : Prop :=
  ∃ c ∈ cs, isBlank c = false

theorem Visible.append (lead : List Char) (h : Visible cs) : Visible (lead ++ cs) := by
  obtain ⟨c, hMem, hVisible⟩ := h
  exact ⟨c, List.mem_append_right lead hMem, hVisible⟩

/-- The text neither begins nor ends with a blank. -/
structure IsTrimmed (cs : List Char) : Prop where
  first : ∀ h : cs ≠ [], isBlank (cs.head h) = false
  last : ∀ h : cs ≠ [], isBlank (cs.getLast h) = false

theorem head_trimStart (h : trimStart cs ≠ []) : isBlank ((trimStart cs).head h) = false :=
  List.head_dropWhile_not isBlank h

theorem trimStart_isSuffix (cs : List Char) : trimStart cs <:+ cs :=
  List.dropWhile_suffix isBlank

theorem trimEnd_isPrefix (cs : List Char) : trimEnd cs <+: cs := by
  rw [← List.reverse_suffix, trimEnd, List.reverse_reverse]
  exact List.dropWhile_suffix isBlank

theorem trimStart_eq_self (h : ∀ h : cs ≠ [], isBlank (cs.head h) = false) :
    trimStart cs = cs := by
  cases cs with
  | nil => rfl
  | cons c cs =>
      have hFirst : isBlank c = false := h (by simp)
      simp [trimStart, hFirst]

theorem trimEnd_eq_self (h : ∀ h : cs ≠ [], isBlank (cs.getLast h) = false) :
    trimEnd cs = cs := by
  have hReverse : trimStart cs.reverse = cs.reverse := by
    apply trimStart_eq_self
    intro hNonempty
    simpa using h (by simpa using hNonempty)
  show (trimStart cs.reverse).reverse = cs
  rw [hReverse, List.reverse_reverse]

theorem getLast_trimEnd (h : trimEnd cs ≠ []) : isBlank ((trimEnd cs).getLast h) = false := by
  have hNonempty : trimStart cs.reverse ≠ [] := by simpa [trimEnd, trimStart] using h
  simpa [trimEnd, trimStart] using head_trimStart hNonempty

/-- Nothing is left at the beginning of a trimmed text, and nothing at its end. -/
theorem isTrimmed_trim (cs : List Char) : IsTrimmed (trim cs) where
  first h := by
    show isBlank ((trimEnd (trimStart cs)).head h) = false
    rw [(trimEnd_isPrefix (trimStart cs)).head h]
    exact head_trimStart _
  last h := getLast_trimEnd h

theorem IsTrimmed.trim_eq (h : IsTrimmed cs) : trim cs = cs := by
  rw [trim, trimStart_eq_self h.first, trimEnd_eq_self h.last]

/-- What is cut off before a trimmed text leaves its end as it is. -/
theorem IsTrimmed.trimStart_of_suffix (h : IsTrimmed cs) (hRest : rest <:+ cs) :
    IsTrimmed (trimStart rest) where
  first := head_trimStart
  last hNonempty := by
    rw [((trimStart_isSuffix rest).trans hRest).getLast hNonempty]
    exact h.last _

theorem trimStart_append (hBlanks : ∀ c ∈ blanks, isBlank c = true) :
    trimStart (blanks ++ cs) = trimStart cs :=
  List.dropWhile_append_of_pos hBlanks

/-- Trimming the end does not reach what stands before a text that is not blank. -/
theorem trimEnd_append (lead : List Char) (h : Visible cs) :
    trimEnd (lead ++ cs) = lead ++ trimEnd cs := by
  obtain ⟨c, hMem, hVisible⟩ := h
  have hNonempty : cs.reverse.dropWhile isBlank ≠ [] := by
    intro hNil
    have hBlank := List.dropWhile_eq_nil_iff.1 hNil c (List.mem_reverse.2 hMem)
    rw [hVisible] at hBlank
    cases hBlank
  simp [trimEnd, List.dropWhile_append, hNonempty]

/-- In a text that is not blank both ends may be trimmed in either order. -/
theorem trimStart_trimEnd (h : Visible cs) : trimStart (trimEnd cs) = trim cs := by
  have hSplit : cs.takeWhile isBlank ++ trimStart cs = cs := List.takeWhile_append_dropWhile
  have hBlanks : ∀ c ∈ cs.takeWhile isBlank, isBlank c = true := fun _ => List.mem_takeWhile_imp
  have hRest : Visible (trimStart cs) := by
    obtain ⟨c, hMem, hVisible⟩ := h
    rw [← hSplit, List.mem_append] at hMem
    rcases hMem with hBefore | hAfter
    · simp [hBlanks c hBefore] at hVisible
    · exact ⟨c, hAfter, hVisible⟩
  calc trimStart (trimEnd cs)
      = trimStart (trimEnd (cs.takeWhile isBlank ++ trimStart cs)) := by rw [hSplit]
    _ = trimStart (cs.takeWhile isBlank ++ trim cs) := by rw [trimEnd_append _ hRest, trim]
    _ = trimStart (trim cs) := trimStart_append hBlanks
    _ = trim cs := trimStart_eq_self (isTrimmed_trim cs).first

end Text

/-! ## Qualifiers -/

/-- What may stand before a type. -/
inductive Qualifier where
  | const
  | volatile
  deriving DecidableEq, Repr

namespace Qualifier

/-- The qualifier as spelled. -/
def word : Qualifier → String
  | const => "const"
  | volatile => "volatile"

/-- The qualifier and the space that ends it. -/
def lead (qualifier : Qualifier) : List Char :=
  qualifier.word.toList ++ [' ']

theorem exists_of_mem {lead : List Char} (h : lead ∈ qualifiers) :
    ∃ qualifier : Qualifier, qualifier.lead = lead := by
  rcases List.mem_cons.1 h with rfl | h
  · exact ⟨const, rfl⟩
  · rw [List.mem_singleton.1 h]
    exact ⟨volatile, rfl⟩

/-- A qualifier begins with a letter. -/
theorem trimStart_append (qualifier : Qualifier) (rest : List Char) :
    Text.trimStart (qualifier.lead ++ rest) = qualifier.lead ++ rest := by
  cases qualifier <;> rfl

end Qualifier

theorem dropQualifier?_append (qualifier : Qualifier) (rest : List Char) :
    dropQualifier? (qualifier.lead ++ rest) = some (Text.trimStart rest) := by
  cases qualifier <;> rfl

theorem dropQualifier?_eq_some {cs rest : List Char} :
    dropQualifier? cs = some rest ↔
      ∃ (qualifier : Qualifier) (after : List Char),
        cs = qualifier.lead ++ after ∧ rest = Text.trimStart after := by
  constructor
  · intro h
    obtain ⟨after, hAfter, rfl⟩ := Option.map_eq_some_iff.1 h
    obtain ⟨lead, hLead, hDrop⟩ := List.exists_of_findSome?_eq_some hAfter
    obtain ⟨qualifier, rfl⟩ := Qualifier.exists_of_mem hLead
    exact ⟨qualifier, after, Text.dropLead?_eq_some.1 hDrop, rfl⟩
  · rintro ⟨qualifier, after, rfl, rfl⟩
    exact dropQualifier?_append qualifier after

theorem dropQualifiers_of_some {cs rest : List Char} (h : dropQualifier? cs = some rest) :
    dropQualifiers cs = dropQualifiers rest := by
  rw [dropQualifiers]
  split
  · rename_i found hFound
    rw [hFound] at h
    rw [Option.some.inj h]
  · rename_i hNone
    rw [hNone] at h
    cases h

theorem dropQualifiers_of_none {cs : List Char} (h : dropQualifier? cs = none) :
    dropQualifiers cs = cs := by
  rw [dropQualifiers]
  split
  · rename_i found hFound
    rw [hFound] at h
    cases h
  · rfl

theorem dropQualifier?_eq_none {cs : List Char} :
    dropQualifier? cs = none ↔ ∀ qualifier : Qualifier, ¬ qualifier.lead <+: cs := by
  rw [Option.eq_none_iff_forall_ne_some]
  constructor
  · rintro h qualifier ⟨after, rfl⟩
    exact h _ (dropQualifier?_append qualifier after)
  · intro h rest hSome
    obtain ⟨qualifier, after, rfl, _⟩ := dropQualifier?_eq_some.1 hSome
    exact h qualifier (List.prefix_append _ _)

/-- **One qualifier**: it goes, with whatever blanks follow it, if something else follows. -/
theorem dropQualifiers_trim_append (qualifier : Qualifier) {blanks cs : List Char}
    (hBlanks : ∀ c ∈ blanks, Text.isBlank c = true) (h : Text.Visible cs) :
    dropQualifiers (Text.trim (qualifier.lead ++ (blanks ++ cs))) =
      dropQualifiers (Text.trim cs) := by
  have hTrim : Text.trim (qualifier.lead ++ (blanks ++ cs)) =
      qualifier.lead ++ (blanks ++ Text.trimEnd cs) := by
    rw [Text.trim, qualifier.trimStart_append, Text.trimEnd_append _ (h.append blanks),
      Text.trimEnd_append _ h]
  rw [hTrim, dropQualifiers_of_some (dropQualifier?_append _ _), Text.trimStart_append hBlanks,
    Text.trimStart_trimEnd h]

/-- All leading qualifiers go, and what is left is trimmed. -/
theorem dropQualifiers_spec {cs : List Char} (h : Text.IsTrimmed cs) :
    Text.IsTrimmed (dropQualifiers cs) ∧ dropQualifier? (dropQualifiers cs) = none := by
  induction cs using dropQualifiers.induct with
  | case1 cs rest hSome ih =>
      obtain ⟨qualifier, after, rfl, rfl⟩ := dropQualifier?_eq_some.1 hSome
      rw [dropQualifiers_of_some hSome]
      exact ih (h.trimStart_of_suffix (List.suffix_append _ _))
  | case2 cs hNone =>
      rw [dropQualifiers_of_none hNone]
      exact ⟨h, hNone⟩

/-! ## Bare types -/

/-- The type has no blanks at its ends and no qualifier before it. -/
structure IsBare (spec : String) : Prop where
  trimmed : Text.IsTrimmed spec.toList
  plain : ∀ qualifier : Qualifier, ¬ qualifier.lead <+: spec.toList

/-- What is left without qualifiers is bare. -/
theorem isBare_unqualified (spec : String) : IsBare (unqualified spec) := by
  obtain ⟨hTrimmed, hNone⟩ := dropQualifiers_spec (Text.isTrimmed_trim spec.toList)
  unfold unqualified
  constructor
  · rwa [String.toList_ofList]
  · rw [String.toList_ofList]
    exact dropQualifier?_eq_none.1 hNone

/-- A bare type is left as it is. -/
theorem unqualified_of_isBare {spec : String} (h : IsBare spec) : unqualified spec = spec := by
  rw [unqualified, h.trimmed.trim_eq, dropQualifiers_of_none (dropQualifier?_eq_none.2 h.plain),
    String.ofList_toList]

/-- **Fixed points**: the types without qualifiers are the bare ones. -/
theorem unqualified_eq_self_iff {spec : String} : unqualified spec = spec ↔ IsBare spec := by
  constructor
  · intro h
    rw [← h]
    exact isBare_unqualified spec
  · exact unqualified_of_isBare

theorem unqualified_unqualified (spec : String) :
    unqualified (unqualified spec) = unqualified spec :=
  unqualified_of_isBare (isBare_unqualified spec)

/-! ## Types with qualifiers before them -/

/-- A qualifier before a type, with the blanks after the space that ends it. -/
structure Qualification where
  qualifier : Qualifier
  blanks : String
  isBlank : ∀ c ∈ blanks.toList, Text.isBlank c = true

/-- The qualifier and its blanks as spelled. -/
def Qualification.text (qualification : Qualification) : String :=
  qualification.qualifier.word ++ " " ++ qualification.blanks

/-- A type with some qualifiers before it, outermost first. -/
def qualify : List Qualification → String → String
  | [], spec => spec
  | qualification :: rest, spec => qualification.text ++ qualify rest spec

theorem toList_qualify_cons (qualification : Qualification) (rest : List Qualification)
    (spec : String) :
    (qualify (qualification :: rest) spec).toList =
      qualification.qualifier.lead ++
        (qualification.blanks.toList ++ (qualify rest spec).toList) := by
  simp [qualify, Qualification.text, Qualifier.lead]

theorem visible_qualify (leading : List Qualification) {spec : String}
    (h : Text.Visible spec.toList) : Text.Visible (qualify leading spec).toList := by
  induction leading with
  | nil => exact h
  | cons qualification rest ih =>
      rw [toList_qualify_cons]
      exact (ih.append _).append _

/-- **Any number of qualifiers**: before a type that is not blank they make no difference. -/
theorem unqualified_qualify (leading : List Qualification) {spec : String}
    (h : Text.Visible spec.toList) : unqualified (qualify leading spec) = unqualified spec := by
  induction leading with
  | nil => rfl
  | cons qualification rest ih =>
      rw [← ih, unqualified, unqualified, toList_qualify_cons,
        dropQualifiers_trim_append _ qualification.isBlank (visible_qualify rest h)]

/-! ## What a type refers to -/

theorem TypeSpec.aggregateName?_congr {type other : TypeSpec}
    (h : type.unqualifiedBase = other.unqualifiedBase) :
    type.aggregateName? = other.aggregateName? := by
  unfold aggregateName?
  rw [h]

theorem Primitives.resolve?_congr (primitives : Primitives) {spec other : String}
    (h : unqualified spec = unqualified other) :
    primitives.resolve? spec = primitives.resolve? other := by
  unfold resolve?
  rw [h]

/-- **Qualifiers**: any number of qualifiers in any order, each with a space and more blanks after
it, makes no difference to a type that is not blank: not to its base type, nor to the structure or
union it names, nor to the primitive type it is in any table.  Taking qualifiers away a second
time takes nothing away, since all that is left is bare, and a primitive type is found under
what is left as it is under the whole. -/
theorem qualifiers_are_ignored :
    (∀ (leading : List Qualification) (spec : String), Text.Visible spec.toList →
      (∀ declarator,
        (TypeSpec.mk (qualify leading spec) declarator).unqualifiedBase =
            (TypeSpec.mk spec declarator).unqualifiedBase ∧
          (TypeSpec.mk (qualify leading spec) declarator).aggregateName? =
            (TypeSpec.mk spec declarator).aggregateName?) ∧
        ∀ primitives : Primitives,
          primitives.resolve? (qualify leading spec) = primitives.resolve? spec) ∧
      (∀ type : TypeSpec,
        { type with base := type.unqualifiedBase }.unqualifiedBase = type.unqualifiedBase) ∧
      (∀ type : TypeSpec, type.unqualifiedBase = type.base ↔ IsBare type.base) ∧
      ∀ (primitives : Primitives) (type : TypeSpec),
        primitives.resolve? type.base = primitives.resolve? type.unqualifiedBase := by
  refine ⟨?_, ?_, ?_, ?_⟩
  · intro leading spec h
    have hSame := unqualified_qualify leading h
    constructor
    · intro declarator
      exact ⟨hSame, TypeSpec.aggregateName?_congr hSame⟩
    · intro primitives
      exact primitives.resolve?_congr hSame
  · intro type
    exact unqualified_unqualified type.base
  · intro type
    exact unqualified_eq_self_iff
  · intro primitives type
    exact primitives.resolve?_congr (unqualified_unqualified type.base).symm

namespace Sample

/-- Two qualifiers, with a tab and a wide blank after the first. -/
def mixedQualifiers : List Qualification :=
  [⟨.volatile, "\t\u2003", List.all_eq_true.1 (by decide +kernel)⟩, ⟨.const, "", nofun⟩]

/-- With these before it, a type still names its structure, and a primitive type is still found.
A lone qualifier after them is not one. -/
theorem qualified_types_are_found :
    qualify mixedQualifiers "struct chreTestItem " =
        "volatile \t\u2003const struct chreTestItem " ∧
      (TypeSpec.mk "volatile \t\u2003const struct chreTestItem " .pointer).aggregateName? =
        some "chreTestItem" ∧
      Primitives.standard.resolve? (qualify mixedQualifiers "const") = none ∧
      Primitives.standard.resolve? (qualify mixedQualifiers " int32_t") = some ⟨4, .signed⟩ := by
  obtain ⟨hIgnored, _⟩ := qualifiers_are_ignored
  have hSpelled : qualify mixedQualifiers "struct chreTestItem " =
      "volatile \t\u2003const struct chreTestItem " := by decide +kernel
  refine ⟨hSpelled, ?_, ?_, ?_⟩
  · have hName : Text.Visible "struct chreTestItem ".toList :=
      ⟨'s', by decide +kernel, by decide⟩
    rw [← hSpelled, ((hIgnored mixedQualifiers _ hName).1 .pointer).2]
    decide +kernel
  · have hConst : Text.Visible "const".toList :=
      ⟨'c', by decide +kernel, by decide⟩
    rw [(hIgnored mixedQualifiers _ hConst).2]
    decide +kernel
  · have hInt : Text.Visible " int32_t".toList :=
      ⟨'i', by decide +kernel, by decide⟩
    rw [(hIgnored mixedQualifiers _ hInt).2]
    decide +kernel

end Sample

end WireSchema
