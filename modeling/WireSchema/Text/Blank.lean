/-!
# Blank characters

The blank characters are the twenty-five code points of the Unicode property
`White_Space`.  Core's `Char.isWhitespace` knows only the ASCII ones, and
declarations may be separated by any of them, so the property is listed here
in full.

Text is cut as a list of characters: `trimStart`, `trimEnd` and `trim` remove blanks
from one end or both, and `dropLead?` removes a fixed beginning.
-/

namespace WireSchema.Text

/-- The ranges of `White_Space`, first and last code point, in order. -/
def blankRanges : List (Nat × Nat) :=
  [ (0x0009, 0x000D), (0x0020, 0x0020), (0x0085, 0x0085), (0x00A0, 0x00A0)
  , (0x1680, 0x1680), (0x2000, 0x200A), (0x2028, 0x2029), (0x202F, 0x202F)
  , (0x205F, 0x205F), (0x3000, 0x3000) ]

/-- A blank character lies in one of `blankRanges`. -/
def isBlank (c : Char) : Bool :=
  blankRanges.any fun range => range.1 ≤ c.toNat && c.toNat ≤ range.2

/-- What is left of `cs` after its leading blanks. -/
def trimStart (cs : List Char) : List Char :=
  cs.dropWhile isBlank

/-- What is left of `cs` before its trailing blanks. -/
def trimEnd (cs : List Char) : List Char :=
  (cs.reverse.dropWhile isBlank).reverse

/-- `cs` without the blanks at either end. -/
def trim (cs : List Char) : List Char :=
  trimEnd (trimStart cs)

/-- What follows `lead` in `cs`, if `cs` begins with it. -/
def dropLead? (lead cs : List Char) : Option (List Char) :=
  if lead.isPrefixOf cs then some (cs.drop lead.length) else none

theorem dropLead?_eq_some {lead cs rest : List Char} :
    dropLead? lead cs = some rest ↔ cs = lead ++ rest := by
  unfold dropLead?
  constructor
  · intro h
    split at h
    · rename_i hPrefix
      rw [← Option.some.inj h]
      exact (List.prefix_iff_eq_append.1 (List.isPrefixOf_iff_prefix.1 hPrefix)).symm
    · cases h
  · rintro rfl
    simp

/-- What follows `lead` in `text`, if `text` begins with it. -/
def afterPrefix? (lead text : String) : Option String :=
  (dropLead? lead.toList text.toList).map String.ofList

/-- Every range of blanks is in order and disjoint from the next. -/
example : (blankRanges.zip (blankRanges.drop 1)).all
    (fun pair => pair.1.1 ≤ pair.1.2 && pair.1.2 < pair.2.1) = true := by decide

/-- The property counts twenty-five code points. -/
example : (blankRanges.map fun range => range.2 + 1 - range.1).sum = 25 := by decide

end WireSchema.Text
