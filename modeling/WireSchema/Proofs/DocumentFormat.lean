import Mathlib.Data.List.Forall2
import Mathlib.Data.List.Nodup
import WireSchema.Proofs.SlotTable

/-!
# The format of documents, both ways

`DirectiveGroup.toJson` writes a group of directives as a document has it.  What is read is not
bound to that text.  `IsDocumentOf` says when a document stands for some groups: objects may
have their members in any order and more of them under other names, and a group without entries
or an `enum` entry without a type may leave that member out.

Such a document is read as those groups, and indexed slot by slot.  A document with one flawed
entry is not read at all.  `Json.IsFlawed` lists the flaws: the kind is none, or a member that
the kind needs is missing or not of its form.

## Main results

* `Json.HasMembers.member?_eq`: looking a member up does not depend on order or other members.
* `DirectiveEntry.IsWritten.read`, `DirectiveGroup.IsWritten.read`: what is written is read.
* `DirectiveEntry.ofJson?_of_isFlawed`: a flawed entry is not read.
* `documents_are_read_exactly`: all documents.
-/

namespace WireSchema

/-! ## Members of objects -/

namespace Json

/-- An object with the given members, in any order, and with others whose names are not among
`keys`. -/
def HasMembers (json : Json) (own : List (String × Json)) (keys : List String) : Prop :=
  ∃ members unknown, json = .object members ∧ members.Perm (own ++ unknown) ∧
    ∀ pair ∈ unknown, pair.1 ∉ keys

theorem hasMembers_object (members : List (String × Json)) (keys : List String) :
    (Json.object members).HasMembers members keys :=
  ⟨members, [], rfl, by simp, by simp⟩

variable {json : Json} {own : List (String × Json)} {keys : List String}

/-- Looking up a name under which there is one value only. -/
theorem lookup_of_unique {members : List (String × Json)} {key : String} {value : Json}
    (hMem : (key, value) ∈ members) (hOnly : ∀ other, (key, other) ∈ members → other = value) :
    members.lookup key = some value := by
  cases hLookup : members.lookup key with
  | none =>
      have hAbsent := List.lookup_eq_none_iff.1 hLookup _ hMem
      simp at hAbsent
  | some other =>
      obtain ⟨before, after, rfl, _⟩ := List.lookup_eq_some_iff.1 hLookup
      rw [hOnly other (by simp)]

/-- A name that the object may not use otherwise has the value that it was given. -/
theorem HasMembers.member?_eq (h : json.HasMembers own keys) (hNodup : (own.map Prod.fst).Nodup)
    {key : String} (hKey : key ∈ keys) : json.member? key = own.lookup key := by
  obtain ⟨members, unknown, rfl, hPerm, hUnknown⟩ := h
  have hOwn : ∀ value, (key, value) ∈ members ↔ (key, value) ∈ own := by
    intro value
    rw [hPerm.mem_iff, List.mem_append, or_iff_left_iff_imp]
    intro hMem
    exact absurd hKey (hUnknown _ hMem)
  show members.lookup key = own.lookup key
  cases hLookup : own.lookup key with
  | none =>
      rw [List.lookup_eq_none_iff]
      intro pair hPair
      by_contra hSame
      have hEq : key = pair.1 := by simpa using hSame
      subst hEq
      have hAbsent := List.lookup_eq_none_iff.1 hLookup _ ((hOwn pair.2).1 hPair)
      simp at hAbsent
  | some value =>
      obtain ⟨before, after, hSplit, _⟩ := List.lookup_eq_some_iff.1 hLookup
      have hMem : (key, value) ∈ own := by simp [hSplit]
      refine lookup_of_unique ((hOwn value).2 hMem) fun other hOther => ?_
      have hPair := List.inj_on_of_nodup_map hNodup ((hOwn other).1 hOther) hMem rfl
      exact (Prod.mk.inj hPair).2

end Json

/-! ## Lists of values -/

section Lists

variable {α : Type} {read : Json → Option α} {items : List Json} {values : List α}

theorem mapM_of_forall₂ (h : List.Forall₂ (fun value item => read item = some value) values items) :
    items.mapM read = some values := by
  induction h with
  | nil => rfl
  | cons hFirst _ ih => simp [List.mapM_cons, hFirst, ih]

/-- One value that is not read is enough. -/
theorem mapM_eq_none {item : Json} (hItem : item ∈ items) (h : read item = none) :
    items.mapM read = none := by
  induction items with
  | nil => cases hItem
  | cons first rest ih =>
      rw [List.mapM_cons]
      cases List.mem_cons.1 hItem with
      | inl hSame => simp [← hSame, h]
      | inr hRest => cases read first <;> simp [ih hRest]

end Lists

/-! ## What is written -/

def Literal.toJson : Literal → Json
  | .int value => .int value.toInt
  | .symbol name => .string name

def pairToJson (pair : Literal × String) : Json :=
  .array [pair.1.toJson, .string pair.2]

/-- The members that a directive has because of its kind. -/
def Directive.members : Directive → List (String × Json)
  | .renameType name => [("type_override", .string name)]
  | .overrideType spec => [("type_override", .string spec)]
  | .fixedValue value => [("value", value.toJson)]
  | .varLenArray lengthField => [("length_field", .string lengthField)]
  | .unionVariant discriminator mapping =>
    [("discriminator", .string discriminator), ("mapping", .array (mapping.map pairToJson))]
  | .enumeration typeName => [("enum_type", typeName.elim .null .string)]

/-- The names of the members that a kind of directive has. -/
def DirectiveKind.keys : DirectiveKind → List String
  | .renameType => ["type_override"]
  | .overrideType => ["type_override"]
  | .fixedValue => ["value"]
  | .varLenArray => ["length_field"]
  | .unionVariant => ["discriminator", "mapping"]
  | .enumeration => ["enum_type"]

namespace DirectiveEntry

/-- The members of an entry that all kinds have. -/
def sharedMembers (entry : DirectiveEntry) : List (String × Json) :=
  [("field", .string entry.field), ("annotation", .string entry.directive.kind.name)]

def members (entry : DirectiveEntry) : List (String × Json) :=
  entry.sharedMembers ++ entry.directive.members

/-- The names that mean something in an entry of this kind. -/
def keys (entry : DirectiveEntry) : List String :=
  ["field", "annotation"] ++ entry.directive.kind.keys

def toJson (entry : DirectiveEntry) : Json :=
  .object entry.members

/-- The value stands for the entry. -/
inductive IsWritten (entry : DirectiveEntry) (json : Json) : Prop
  | full : json.HasMembers entry.members entry.keys → IsWritten entry json
  | withoutType : entry.directive = .enumeration none →
      json.HasMembers entry.sharedMembers entry.keys → IsWritten entry json

end DirectiveEntry

namespace DirectiveGroup

def members (group : DirectiveGroup) (entries : List Json) : List (String × Json) :=
  [("name", .string group.name), ("annotations", .array entries)]

def toJson (group : DirectiveGroup) : Json :=
  .object (group.members (group.entries.map DirectiveEntry.toJson))

/-- The value stands for the group. -/
inductive IsWritten (group : DirectiveGroup) (json : Json) : Prop
  | full (entries : List Json) : List.Forall₂ DirectiveEntry.IsWritten group.entries entries →
      json.HasMembers (group.members entries) ["name", "annotations"] → IsWritten group json
  | withoutEntries : group.entries = [] →
      json.HasMembers [("name", .string group.name)] ["name", "annotations"] → IsWritten group json

end DirectiveGroup

/-- The document of some groups, with everything spelled out and nothing else. -/
def documentOf (groups : List DirectiveGroup) : Json :=
  .array (groups.map DirectiveGroup.toJson)

/-- The document stands for the groups. -/
def IsDocumentOf (document : Json) (groups : List DirectiveGroup) : Prop :=
  ∃ items, document = .array items ∧ List.Forall₂ DirectiveGroup.IsWritten groups items

theorem DirectiveGroup.isWritten_toJson (group : DirectiveGroup) :
    group.IsWritten group.toJson := by
  refine .full _ ?_ (Json.hasMembers_object _ _)
  rw [List.forall₂_map_right_iff, List.forall₂_same]
  intro entry _
  exact .full (Json.hasMembers_object _ _)

theorem isDocumentOf_documentOf (groups : List DirectiveGroup) :
    IsDocumentOf (documentOf groups) groups := by
  refine ⟨_, rfl, ?_⟩
  rw [List.forall₂_map_right_iff, List.forall₂_same]
  exact fun group _ => group.isWritten_toJson

/-! ## What is written is read -/

theorem Literal.ofJson?_toJson (literal : Literal) :
    Literal.ofJson? literal.toJson = some literal := by
  cases literal with
  | int value =>
      rw [toJson, ofJson?, if_pos ⟨value.minValue_le_toInt, value.toInt_le⟩, Int64.ofInt_toInt]
  | symbol name => rfl

theorem readPair?_pairToJson (pair : Literal × String) :
    readPair? (pairToJson pair) = some pair := by
  rw [pairToJson, readPair?, Literal.ofJson?_toJson]
  rfl

theorem mapM_readPair? (mapping : List (Literal × String)) :
    (mapping.map pairToJson).mapM readPair? = some mapping := by
  refine mapM_of_forall₂ ?_
  rw [List.forall₂_map_right_iff, List.forall₂_same]
  exact fun pair _ => readPair?_pairToJson pair

/-- A directive is read from a value that has its members. -/
theorem Directive.ofJson?_of_members {directive : Directive} {json : Json}
    (h : ∀ key ∈ directive.kind.keys, json.member? key = directive.members.lookup key) :
    Directive.ofJson? directive.kind json = some directive := by
  cases directive with
  | renameType name =>
      simp_all [kind, DirectiveKind.keys, members, ofJson?, stringMember?, Json.string?]
  | overrideType spec =>
      simp_all [kind, DirectiveKind.keys, members, ofJson?, stringMember?, Json.string?]
  | fixedValue value =>
      simp_all [kind, DirectiveKind.keys, members, ofJson?, Literal.ofJson?_toJson]
  | varLenArray lengthField =>
      simp_all [kind, DirectiveKind.keys, members, ofJson?, stringMember?, Json.string?]
  | unionVariant discriminator mapping =>
      have hBoth : json.member? "discriminator" = some (.string discriminator) ∧
          json.member? "mapping" = some (.array (mapping.map pairToJson)) := by
        simpa [kind, DirectiveKind.keys, members, List.lookup_cons] using h
      rw [kind, ofJson?, stringMember?, hBoth.1, hBoth.2]
      show (((mapping.map pairToJson).mapM readPair?) >>= fun pairs =>
        pure (unionVariant discriminator pairs)) = _
      rw [mapM_readPair?]
      rfl
  | enumeration typeName =>
      cases typeName <;>
        simp_all [kind, DirectiveKind.keys, members, ofJson?, readEnumType?]

theorem DirectiveKind.ofJson?_name (kind : DirectiveKind) :
    DirectiveKind.ofJson? (.string kind.name) = some kind :=
  ofName?_name kind

namespace DirectiveEntry

variable {entry : DirectiveEntry} {json : Json}

theorem nodup_members (entry : DirectiveEntry) : (entry.members.map Prod.fst).Nodup := by
  obtain ⟨field, directive⟩ := entry
  cases directive <;> simp [members, sharedMembers, Directive.members]

theorem lookup_sharedMembers {kind : DirectiveKind} {key : String} (h : key ∈ kind.keys) :
    entry.sharedMembers.lookup key = none := by
  have hField : key ≠ "field" := by
    rintro rfl
    cases kind <;> simp [DirectiveKind.keys] at h
  have hAnnotation : key ≠ "annotation" := by
    rintro rfl
    cases kind <;> simp [DirectiveKind.keys] at h
  simp [sharedMembers, List.lookup_cons, beq_eq_false_iff_ne.2 hField,
    beq_eq_false_iff_ne.2 hAnnotation]

/-- An entry is read from the members that all entries have and its directive. -/
theorem ofJson?_of_members (hField : json.member? "field" = some (.string entry.field))
    (hKind : json.member? "annotation" = some (.string entry.directive.kind.name))
    (hDirective : Directive.ofJson? entry.directive.kind json = some entry.directive) :
    DirectiveEntry.ofJson? json = some entry := by
  rw [DirectiveEntry.ofJson?, stringMember?, hField, hKind]
  simp [Json.string?, DirectiveKind.ofJson?_name, hDirective]

theorem IsWritten.read (h : entry.IsWritten json) : DirectiveEntry.ofJson? json = some entry := by
  cases h with
  | full hMembers =>
      have hLookup : ∀ key ∈ entry.keys, json.member? key = entry.members.lookup key :=
        fun key hKey => hMembers.member?_eq entry.nodup_members hKey
      refine ofJson?_of_members (hLookup "field" (by simp [keys]))
        (hLookup "annotation" (by simp [keys])) (Directive.ofJson?_of_members fun key hKey => ?_)
      rw [hLookup key (by simp [keys, hKey]), members, List.lookup_append,
        lookup_sharedMembers hKey, Option.none_or]
  | withoutType hDirective hMembers =>
      have hLookup : ∀ key ∈ entry.keys, json.member? key = entry.sharedMembers.lookup key :=
        fun key hKey => hMembers.member?_eq (by simp [sharedMembers]) hKey
      have hType : json.member? "enum_type" = none :=
        hLookup "enum_type" (by simp [keys, hDirective, Directive.kind, DirectiveKind.keys])
      refine ofJson?_of_members (hLookup "field" (by simp [keys]))
        (hLookup "annotation" (by simp [keys])) ?_
      rw [hDirective, Directive.kind, Directive.ofJson?, readEnumType?, hType]
      rfl

end DirectiveEntry

theorem readEntries?_of_isWritten {entries : List DirectiveEntry} {items : List Json}
    (h : List.Forall₂ DirectiveEntry.IsWritten entries items) :
    readEntries? (.array items) = some entries :=
  mapM_of_forall₂ (h.imp fun _ _ hEntry => hEntry.read)

theorem DirectiveGroup.IsWritten.read {group : DirectiveGroup} {json : Json}
    (h : group.IsWritten json) : DirectiveGroup.ofJson? json = some group := by
  obtain ⟨name, entries⟩ := group
  cases h with
  | full items hItems hMembers =>
      have hLookup : ∀ key ∈ ["name", "annotations"],
          json.member? key = (members ⟨name, entries⟩ items).lookup key :=
        fun key hKey => hMembers.member?_eq (by simp [members]) hKey
      have hName : json.member? "name" = some (.string name) := hLookup "name" (by simp)
      have hEntries : json.member? "annotations" = some (.array items) :=
        hLookup "annotations" (by simp)
      obtain ⟨_, _, rfl, _⟩ := hMembers
      rw [Json.member?] at hEntries
      simp [ofJson?, stringMember?, hName, Json.string?, hEntries, readEntries?_of_isWritten hItems]
  | withoutEntries hEmpty hMembers =>
      have hLookup : ∀ key ∈ ["name", "annotations"],
          json.member? key = [("name", Json.string name)].lookup key :=
        fun key hKey => hMembers.member?_eq (by simp) hKey
      have hName : json.member? "name" = some (.string name) := hLookup "name" (by simp)
      have hEntries : json.member? "annotations" = none := hLookup "annotations" (by simp)
      obtain ⟨_, _, rfl, _⟩ := hMembers
      rw [Json.member?] at hEntries
      have hNone : entries = [] := hEmpty
      simp [ofJson?, stringMember?, hName, Json.string?, hEntries, hNone]

/-- A document is read as the groups that it stands for. -/
theorem IsDocumentOf.read {document : Json} {groups : List DirectiveGroup}
    (h : IsDocumentOf document groups) : readGroups? document = some groups := by
  obtain ⟨items, rfl, hItems⟩ := h
  exact mapM_of_forall₂ (hItems.imp fun _ _ hGroup => hGroup.read)

/-! ## Slots of a document -/

/-- The directives of the entries for a slot of a type, in the order of the document. -/
def directivesOf (groups : List DirectiveGroup) (owner slot : String) : List Directive :=
  (groups.filter fun group => group.name == owner).flatMap fun group =>
    (group.entries.filter fun entry => entry.field == slot).map DirectiveEntry.directive

theorem lookup_notes (group : DirectiveGroup) (owner slot : String) :
    (DirectiveIndex.mk group.notes).lookup owner slot =
      if group.name == owner then
        (group.entries.filter fun entry => entry.field == slot).map DirectiveEntry.directive
      else [] := by
  rw [DirectiveIndex.lookup, DirectiveGroup.notes, List.filter_map, List.map_map]
  cases hOwner : group.name == owner <;> simp [Function.comp_def, hOwner]

theorem lookup_ofGroups (groups : List DirectiveGroup) (owner slot : String) :
    (DirectiveIndex.ofGroups groups).lookup owner slot = directivesOf groups owner slot := by
  induction groups with
  | nil => rfl
  | cons group rest ih =>
      have hSplit : (DirectiveIndex.ofGroups (group :: rest)).lookup owner slot =
          (DirectiveIndex.mk group.notes).lookup owner slot ++
            (DirectiveIndex.ofGroups rest).lookup owner slot := by
        rw [DirectiveIndex.lookup, DirectiveIndex.ofGroups, List.flatMap_cons, List.filter_append,
          List.map_append]
        rfl
      rw [hSplit, ih, lookup_notes, directivesOf, directivesOf, List.filter_cons]
      split <;> simp

theorem size_ofGroups (groups : List DirectiveGroup) :
    (DirectiveIndex.ofGroups groups).size =
      (groups.flatMap DirectiveGroup.entries).length := by
  simp [DirectiveIndex.size, DirectiveIndex.ofGroups, DirectiveGroup.notes, List.length_flatMap]

/-! ## Flaws -/

namespace Json

/-- The entry is of the kind: it has the name of the kind, or its number. -/
def SaysKind (entry : Json) (kind : DirectiveKind) : Prop :=
  entry.member? "annotation" = some (.string kind.name) ∨
    ∃ number : Nat, DirectiveKind.all[number]? = some kind ∧
      entry.member? "annotation" = some (.int number)

/-- The members of each kind that have to be texts. -/
def textKeys : List (DirectiveKind × String) :=
  [(.renameType, "type_override"), (.overrideType, "type_override"),
    (.varLenArray, "length_field"), (.unionVariant, "discriminator")]

/-- Something about the entry is not as the format has it. -/
inductive IsFlawed (entry : Json) : Prop
  | field : (∀ text, entry.member? "field" ≠ some (.string text)) → IsFlawed entry
  | kind : (∀ kind, ¬ entry.SaysKind kind) → IsFlawed entry
  | text {kind : DirectiveKind} {key : String} : (kind, key) ∈ textKeys → entry.SaysKind kind →
      (∀ text, entry.member? key ≠ some (.string text)) → IsFlawed entry
  | value : entry.SaysKind .fixedValue →
      (∀ literal : Literal, entry.member? "value" ≠ some literal.toJson) → IsFlawed entry
  | mapping : entry.SaysKind .unionVariant →
      (∀ pairs : List (Literal × String),
        entry.member? "mapping" ≠ some (.array (pairs.map pairToJson))) → IsFlawed entry
  | enumType {value : Json} : entry.SaysKind .enumeration →
      entry.member? "enum_type" = some value → value ≠ .null → (∀ text, value ≠ .string text) →
      IsFlawed entry

end Json

/-- Some entry of some group is flawed. -/
def HasFlaw (document : Json) : Prop :=
  ∃ groups group entries entry, document = .array groups ∧ group ∈ groups ∧
    group.member? "annotations" = some (.array entries) ∧ entry ∈ entries ∧ entry.IsFlawed

theorem Literal.eq_toJson_of_ofJson? {json : Json} {literal : Literal}
    (h : Literal.ofJson? json = some literal) : json = literal.toJson := by
  cases json with
  | int value =>
      rw [ofJson?] at h
      split at h
      · rename_i hRange
        cases h
        have hMin : (-2 ^ 63 : Int) ≤ value := hRange.1
        have hMax : value ≤ 2 ^ 63 - 1 := hRange.2
        rw [toJson, Int64.toInt_ofInt_of_le hMin (by omega)]
      · cases h
  | string name =>
      cases h
      rfl
  | _ => cases h

theorem eq_pairToJson_of_readPair? {json : Json} {pair : Literal × String}
    (h : readPair? json = some pair) : json = pairToJson pair := by
  unfold readPair? at h
  split at h
  · obtain ⟨literal, hLiteral, rfl⟩ := Option.map_eq_some_iff.1 h
    rw [pairToJson, ← Literal.eq_toJson_of_ofJson? hLiteral]
  · cases h

theorem eq_map_pairToJson_of_mapM {items : List Json} {pairs : List (Literal × String)}
    (h : items.mapM readPair? = some pairs) : items = pairs.map pairToJson := by
  induction items generalizing pairs with
  | nil =>
      cases h
      rfl
  | cons item rest ih =>
      simp only [List.mapM_cons, Option.bind_eq_bind, Option.bind_eq_some_iff] at h
      obtain ⟨pair, hPair, tail, hTail, h⟩ := h
      cases h
      rw [List.map_cons, ← eq_pairToJson_of_readPair? hPair, ← ih hTail]

theorem Json.SaysKind.read {entry : Json} {kind : DirectiveKind} (h : entry.SaysKind kind) :
    (entry.member? "annotation").bind DirectiveKind.ofJson? = some kind := by
  rcases h with hName | ⟨number, hKind, hNumber⟩
  · rw [hName]
    exact DirectiveKind.ofJson?_name kind
  · rw [hNumber]
    exact hKind

theorem Json.saysKind_of_read {entry : Json} {kind : DirectiveKind}
    (h : (entry.member? "annotation").bind DirectiveKind.ofJson? = some kind) :
    entry.SaysKind kind := by
  obtain ⟨value, hValue, hKind⟩ := Option.bind_eq_some_iff.1 h
  unfold DirectiveKind.ofJson? at hKind
  split at hKind
  · rw [← DirectiveKind.name_of_ofName? hKind] at hValue
    exact .inl hValue
  · exact .inr ⟨_, hKind, hValue⟩
  · cases hKind

theorem member?_of_stringMember? {json : Json} {key text : String}
    (h : stringMember? json key = some text) : json.member? key = some (.string text) := by
  obtain ⟨value, hValue, hText⟩ := Option.bind_eq_some_iff.1 h
  cases value with
  | string same =>
      cases hText
      exact hValue
  | _ => cases hText

namespace Directive

variable {json : Json} {directive : Directive}

theorem exists_text_of_ofJson? {kind : DirectiveKind} {key : String}
    (hKey : (kind, key) ∈ Json.textKeys) (h : Directive.ofJson? kind json = some directive) :
    ∃ text, json.member? key = some (.string text) := by
  simp only [Json.textKeys, List.mem_cons, Prod.mk.injEq, List.not_mem_nil, or_false] at hKey
  rcases hKey with ⟨rfl, rfl⟩ | ⟨rfl, rfl⟩ | ⟨rfl, rfl⟩ | ⟨rfl, rfl⟩
  · obtain ⟨text, hText, _⟩ := Option.map_eq_some_iff.1 h
    exact ⟨text, member?_of_stringMember? hText⟩
  · obtain ⟨text, hText, _⟩ := Option.map_eq_some_iff.1 h
    exact ⟨text, member?_of_stringMember? hText⟩
  · obtain ⟨text, hText, _⟩ := Option.map_eq_some_iff.1 h
    exact ⟨text, member?_of_stringMember? hText⟩
  · obtain ⟨text, hText, _⟩ := Option.bind_eq_some_iff.1 h
    exact ⟨text, member?_of_stringMember? hText⟩

theorem exists_literal_of_ofJson? (h : Directive.ofJson? .fixedValue json = some directive) :
    ∃ literal : Literal, json.member? "value" = some literal.toJson := by
  obtain ⟨literal, hLiteral, _⟩ := Option.map_eq_some_iff.1 h
  obtain ⟨value, hValue, hRead⟩ := Option.bind_eq_some_iff.1 hLiteral
  rw [Literal.eq_toJson_of_ofJson? hRead] at hValue
  exact ⟨literal, hValue⟩

theorem exists_mapping_of_ofJson? (h : Directive.ofJson? .unionVariant json = some directive) :
    ∃ pairs : List (Literal × String),
      json.member? "mapping" = some (.array (pairs.map pairToJson)) := by
  obtain ⟨_, _, h⟩ := Option.bind_eq_some_iff.1 h
  obtain ⟨items, hItems, h⟩ := Option.bind_eq_some_iff.1 h
  obtain ⟨pairs, hPairs, _⟩ := Option.bind_eq_some_iff.1 h
  obtain ⟨value, hValue, hArray⟩ := Option.bind_eq_some_iff.1 hItems
  refine ⟨pairs, ?_⟩
  rw [hValue, ← eq_map_pairToJson_of_mapM hPairs]
  cases value with
  | array same =>
      cases hArray
      rfl
  | _ => cases hArray

theorem enumType_of_ofJson? (h : Directive.ofJson? .enumeration json = some directive)
    {value : Json} (hValue : json.member? "enum_type" = some value) :
    value = .null ∨ ∃ text, value = .string text := by
  obtain ⟨typeName, hType, _⟩ := Option.map_eq_some_iff.1 h
  rw [readEnumType?, hValue] at hType
  cases value with
  | null => exact .inl rfl
  | string text => exact .inr ⟨text, rfl⟩
  | _ => cases hType

end Directive

/-- What is read has no flaw. -/
theorem DirectiveEntry.not_isFlawed {json : Json} {entry : DirectiveEntry}
    (h : DirectiveEntry.ofJson? json = some entry) : ¬ json.IsFlawed := by
  obtain ⟨field, hField, h⟩ := Option.bind_eq_some_iff.1 h
  obtain ⟨kind, hKind, h⟩ := Option.bind_eq_some_iff.1 h
  obtain ⟨directive, hDirective, h⟩ := Option.bind_eq_some_iff.1 h
  have hOnly : ∀ {other}, json.SaysKind other → other = kind := by
    intro other hSays
    rw [hSays.read] at hKind
    exact Option.some.inj hKind
  intro hFlawed
  cases hFlawed with
  | field hNot => exact hNot field (member?_of_stringMember? hField)
  | kind hNot => exact hNot kind (Json.saysKind_of_read hKind)
  | text hKey hSays hNot =>
      cases hOnly hSays
      obtain ⟨text, hText⟩ := Directive.exists_text_of_ofJson? hKey hDirective
      exact hNot text hText
  | value hSays hNot =>
      cases hOnly hSays
      obtain ⟨literal, hLiteral⟩ := Directive.exists_literal_of_ofJson? hDirective
      exact hNot literal hLiteral
  | mapping hSays hNot =>
      cases hOnly hSays
      obtain ⟨pairs, hPairs⟩ := Directive.exists_mapping_of_ofJson? hDirective
      exact hNot pairs hPairs
  | enumType hSays hValue hNull hNot =>
      cases hOnly hSays
      cases Directive.enumType_of_ofJson? hDirective hValue with
      | inl hIs => exact hNull hIs
      | inr hText => exact hText.elim hNot

theorem DirectiveEntry.ofJson?_of_isFlawed {json : Json} (h : json.IsFlawed) :
    DirectiveEntry.ofJson? json = none := by
  by_contra hSome
  obtain ⟨entry, hEntry⟩ := Option.ne_none_iff_exists'.1 hSome
  exact DirectiveEntry.not_isFlawed hEntry h

/-- A group with a flawed entry is not read. -/
theorem DirectiveGroup.ofJson?_of_isFlawed {group entry : Json} {entries : List Json}
    (hEntries : group.member? "annotations" = some (.array entries)) (hEntry : entry ∈ entries)
    (h : entry.IsFlawed) : DirectiveGroup.ofJson? group = none := by
  cases group with
  | object members =>
      have hNone : readEntries? (.array entries) = none :=
        mapM_eq_none hEntry (DirectiveEntry.ofJson?_of_isFlawed h)
      rw [Json.member?] at hEntries
      rw [DirectiveGroup.ofJson?]
      cases stringMember? (.object members) "name" <;> simp [hEntries, hNone]
  | _ => cases hEntries

theorem HasFlaw.readGroups?_eq_none {document : Json} (h : HasFlaw document) :
    readGroups? document = none := by
  obtain ⟨groups, group, entries, entry, rfl, hGroup, hEntries, hEntry, hFlawed⟩ := h
  exact mapM_eq_none hGroup (DirectiveGroup.ofJson?_of_isFlawed hEntries hEntry hFlawed)

/-! ## All documents -/

/-- **Documents are read exactly**: a document that stands for some groups is read as just these.
Its index has on every slot the directives of the entries for it, in the order of the document,
and as many notes as there are entries; and so has the table that is made of the groups.  A
document with a flaw is not read. -/
theorem documents_are_read_exactly :
    (∀ groups document, IsDocumentOf document groups →
      readGroups? document = some groups ∧
      ∃ index, DirectiveIndex.ofJson? document = some index ∧
        (∀ owner slot, index.lookup owner slot = directivesOf groups owner slot) ∧
        (∀ owner, index.typeLevel owner = directivesOf groups owner ".") ∧
        index.size = (groups.flatMap DirectiveGroup.entries).length ∧
        (∀ owner slot, (SlotTable.ofNotes (groups.flatMap DirectiveGroup.notes)).lookup owner slot =
          directivesOf groups owner slot) ∧
        (SlotTable.ofNotes (groups.flatMap DirectiveGroup.notes)).count = index.size) ∧
      ∀ document, HasFlaw document → DirectiveIndex.ofJson? document = none := by
  refine ⟨fun groups document h => ⟨h.read, DirectiveIndex.ofGroups groups, ?_,
    lookup_ofGroups groups, fun owner => lookup_ofGroups groups owner typeSlot,
    size_ofGroups groups, fun owner slot => ?_, SlotTable.count_ofNotes _⟩, fun document h => ?_⟩
  · rw [DirectiveIndex.ofJson?, h.read]
    rfl
  · rw [← lookup_ofGroups]
    exact SlotTable.lookup_ofNotes (DirectiveIndex.ofGroups groups) owner slot
  · rw [DirectiveIndex.ofJson?, h.readGroups?_eq_none]
    rfl

namespace Sample

/-- A document with one entry, whose kind is said by the given value. -/
def labelled (kind : Json) : Json :=
  .array [.object
    [ ("name", .string "chreTestBatch")
    , ("annotations", .array [.object
        [("field", .string "."), ("annotation", kind), ("type_override", .string "Batch")]]) ]]

/-- In place of the name of a kind, its number is read as well. -/
theorem numbered_kind_is_read :
    documentOf [⟨"chreTestBatch", [⟨".", .renameType "Batch"⟩]⟩] =
        labelled (.string "rename_type") ∧
      (∀ kind : DirectiveKind, Json.int 0 ≠ .string kind.name) ∧
      (DirectiveIndex.ofJson? (labelled (.int 0))).map
        (fun index => index.typeLevel "chreTestBatch") = some [.renameType "Batch"] := by
  refine ⟨rfl, ?_, by decide +kernel⟩
  intro kind hSame
  cases hSame

def looseGroups : List DirectiveGroup :=
  [ ⟨"chreTestBatch", [⟨"items", .varLenArray "count"⟩, ⟨".", .enumeration none⟩]⟩
  , ⟨"chreTestItem", []⟩ ]

private def looseDocument (lengthField : Json) : Json :=
  .array
    [ .object
        [ ("annotations", .array
            [ .object
                [ ("annotation", .string "var_len_array"), ("field", .string "items")
                , ("length_field", lengthField) ]
            , .object [("field", .string "."), ("annotation", .string "enum")] ])
        , ("name", .string "chreTestBatch"), ("comment", .null) ]
    , .object [("name", .string "chreTestItem")] ]

/-- A document with its members in another order, one more of them, and some left out is read.
With a number in place of the name of the length field it is not. -/
theorem loose_document_is_read :
    (∃ index, DirectiveIndex.ofJson? (looseDocument (.string "count")) = some index ∧
      index.lookup "chreTestBatch" "items" = [.varLenArray "count"] ∧
      index.typeLevel "chreTestBatch" = [.enumeration none] ∧ index.size = 2) ∧
    DirectiveIndex.ofJson? (looseDocument (.int 7)) = none := by
  obtain ⟨hRead, hRejected⟩ := documents_are_read_exactly
  refine ⟨?_, hRejected _ ?_⟩
  · have hFirst : DirectiveEntry.IsWritten ⟨"items", .varLenArray "count"⟩ (.object
        [ ("annotation", .string "var_len_array"), ("field", .string "items")
        , ("length_field", .string "count") ]) :=
      .full ⟨_, [], rfl, .swap _ _ _, by simp⟩
    have hSecond : DirectiveEntry.IsWritten ⟨".", .enumeration none⟩ (.object
        [("field", .string "."), ("annotation", .string "enum")]) :=
      .withoutType rfl (Json.hasMembers_object _ _)
    have hDocument : IsDocumentOf (looseDocument (.string "count")) looseGroups := by
      refine ⟨_, rfl, .cons ?_ (.cons ?_ .nil)⟩
      · refine .full _ (.cons hFirst (.cons hSecond .nil)) ⟨_, [("comment", .null)], rfl, ?_, ?_⟩
        · exact .swap _ _ _
        · simp
      · exact .withoutEntries rfl (Json.hasMembers_object _ _)
    obtain ⟨_, index, hIndex, hLookup, hType, hSize, _⟩ := hRead looseGroups _ hDocument
    exact ⟨index, hIndex, hLookup _ _, hType _, hSize⟩
  · refine ⟨_, _, _, _, rfl, List.mem_cons_self, rfl, List.mem_cons_self, ?_⟩
    refine .text (show (.varLenArray, "length_field") ∈ Json.textKeys by decide) (.inl rfl) ?_
    intro text hText
    cases hText

end Sample

end WireSchema
