import WireSchema.Number.Decimal
import WireSchema.Text.Numeral
import WireSchema.Text.Quoted

/-!
# Source values

What is encoded is an instance of a source type: numbers, arrays and records.  A field
that a record lacks and an item beyond the end of an array count as absent, and absent
values are encoded as zero.  A record may repeat a name; the last value counts.

`Value.json` writes a value as JSON text, for a reader who wants to see it: records
keep all their fields in order, and a number that is not finite is `null`.
-/

namespace WireSchema

/-- A source value. -/
inductive Value where
  | int (value : Int64)
  | float (value : Binary64)
  | array (items : List Value)
  | record (fields : List (String × Value))
  deriving Inhabited

namespace Value

/-- The field of a record, the last one of its name. -/
def field? (name : String) : Value → Option Value
  | record fields => fields.reverse.lookup name
  | _ => none

/-- The item of an array. -/
def index? (i : Nat) : Value → Option Value
  | array items => items[i]?
  | _ => none

/-- The items of an array; any other value has none. -/
def items : Value → List Value
  | array items => items
  | _ => []

/-- Whether the value is a record. -/
def isRecord : Value → Bool
  | record _ => true
  | _ => false

/-- The number as an integer, without its fraction. -/
def toInt? : Value → Option Int64
  | int value => some value
  | float value => some value.truncate
  | _ => none

/-- The number as a binary64 number. -/
def toFloat? : Value → Option Binary64
  | int value => some (Binary64.ofInt value)
  | float value => some value
  | _ => none

mutual

/-- How deeply arrays and records are nested in a value. -/
def depth : Value → Nat
  | int _ => 0
  | float _ => 0
  | array items => depthOfItems items + 1
  | record fields => depthOfFields fields + 1

/-- The greatest depth of the items of an array. -/
def depthOfItems : List Value → Nat
  | [] => 0
  | item :: rest => max item.depth (depthOfItems rest)

/-- The greatest depth of the fields of a record. -/
def depthOfFields : List (String × Value) → Nat
  | [] => 0
  | (_, value) :: rest => max value.depth (depthOfFields rest)

end

/-- Floating-point numbers are written positionally while the leading digit stands
between the fifth decimal and the sixteenth place, with a point in any case, and in
scientific notation otherwise. -/
def floatLayout : DecimalLayout where
  leastPositional := -5
  greatestPositional := 15
  exponentMark isNegative := if isNegative then "e-" else "e+"
  notFinite := "null"

example : floatLayout.render ⟨0x3FF8000000000000⟩ = "1.5" ∧
    floatLayout.render ⟨0x4059000000000000⟩ = "100.0" ∧
    floatLayout.render ⟨0x8000000000000000⟩ = "-0.0" ∧
    floatLayout.render ⟨0x3F1A36E2EB1C432D⟩ = "0.0001" ∧
    floatLayout.render ⟨0x7E37E43C8800759C⟩ = "1e+300" ∧
    floatLayout.render ⟨0x7FF8000000000000⟩ = "null" := by decide +kernel

mutual

/-- The value as JSON text, without blanks. -/
def json : Value → String
  | int value => Text.integer value.toInt
  | float value => floatLayout.render value
  | array items => "[" ++ String.intercalate "," (jsonOfItems items) ++ "]"
  | record fields => "\x7b" ++ String.intercalate "," (jsonOfFields fields) ++ "\x7d"

/-- The items of an array as JSON texts. -/
def jsonOfItems : List Value → List String
  | [] => []
  | item :: rest => item.json :: jsonOfItems rest

/-- The fields of a record as members of a JSON object. -/
def jsonOfFields : List (String × Value) → List String
  | [] => []
  | (name, value) :: rest => (Text.quoted name ++ ":" ++ value.json) :: jsonOfFields rest

end

end Value

end WireSchema
