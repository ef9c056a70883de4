import WireSchema.Text.Letter

/-!
# Spellings of an identifier

Generated names are put together from other names, whose case changes on the
way: `upperFirst` and `lowerFirst` change the first character only, `screaming`
turns camel case into upper-case words joined by underscores, and `allUpper`
changes every character.
-/

namespace WireSchema.Text

/-- `name` with its first character in upper case. -/
def upperFirst (name : String) : String :=
  match name.toList with
  | [] => ""
  | c :: rest => String.ofList (upper c ++ rest)

/-- `name` with its first character in lower case. -/
def lowerFirst (name : String) : String :=
  match name.toList with
  | [] => ""
  | c :: rest => String.ofList (lower c ++ rest)

/-- `text` with every character in upper case. -/
def allUpper (text : String) : String :=
  String.ofList (text.toList.flatMap upper)

/-- The characters of `screaming`.  `inWord` says that something was written and
that it does not end in an underscore, so that a capital opens a new word. -/
def screamingChars (inWord : Bool) : List Char → List Char
  | [] => []
  | c :: rest =>
    if c.isUpper then
      if inWord then '_' :: c :: screamingChars true rest else c :: screamingChars true rest
    else if c = '-' ∨ c = '.' then
      '_' :: screamingChars false rest
    else
      c.toUpper :: screamingChars (c != '_') rest

/-- Camel case to upper-case words joined by underscores (`wwanTypes` to
`WWAN_TYPES`).  Only ASCII letters change; a hyphen and a dot separate words. -/
def screaming (name : String) : String :=
  String.ofList (screamingChars false name.toList)

example : screaming "wwanTypes" = "WWAN_TYPES" ∧ screaming "a-B.cD" = "A_B_C_D" := by
  decide +kernel

end WireSchema.Text
