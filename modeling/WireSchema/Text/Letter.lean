import WireSchema.Text.CaseTable

/-!
# Upper and lower case of a character

`upper` and `lower` give the full case mapping of a character as a list: most
characters map to one character, some to several (`ß` to `SS`), and a character
without a mapping maps to itself.  On ASCII letters they agree with core's
`Char.toUpper` and `Char.toLower`, which know no others.
-/

namespace WireSchema.Text

/-- The mapping of `c` under a table of sequences and a table of runs. -/
def mapCase (sequences : List (Nat × List Nat)) (runs : List CaseRun) (c : Char) : List Char :=
  match sequences.lookup c.toNat with
  | some codes => codes.map Char.ofNat
  | none =>
    match runs.find? (·.covers c.toNat) with
    | some run => [Char.ofNat (c.toNat + run.delta).toNat]
    | none => [c]

/-- The upper case of a character. -/
def upper (c : Char) : List Char :=
  mapCase upperSequences upperRuns c

/-- The lower case of a character. -/
def lower (c : Char) : List Char :=
  mapCase lowerSequences lowerRuns c

example : upper 'é' = ['É'] ∧ upper 'ß' = ['S', 'S'] ∧ upper 'A' = ['A'] ∧ upper '_' = ['_'] := by
  decide +kernel

example : lower 'Σ' = ['σ'] ∧ lower 'Q' = ['q'] ∧ lower 'ß' = ['ß'] := by
  decide +kernel

end WireSchema.Text
