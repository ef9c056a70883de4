/-!
# Decimal numerals

Numbers in messages and in generated code are decimal numerals without leading
zeros; a negative one begins with a minus sign.
-/

namespace WireSchema.Text

/-- The decimal numeral of a natural number. -/
def natural (n : Nat) : String :=
  Nat.repr n

/-- The decimal numeral of an integer. -/
def integer (n : Int) : String :=
  if n < 0 then "-" ++ natural n.natAbs else natural n.natAbs

example : integer (-12) = "-12" ∧ integer 0 = "0" := by decide +kernel

end WireSchema.Text
