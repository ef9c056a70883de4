/-!
# JSON documents

A JSON value as read from a document.  Numbers keep what a reader of integers has to
know: an `int` was written without fraction and exponent, any other number is a
`real` and keeps its text.  Object members keep their order.
-/

namespace WireSchema

/-- A JSON value. -/
inductive Json where
  | null
  | bool (value : Bool)
  | int (value : Int)
  | real (text : String)
  | string (text : String)
  | array (items : List Json)
  | object (members : List (String × Json))
  deriving Inhabited

namespace Json

/-- The value of the first member called `name`, if the value is an object with one. -/
def member? (name : String) : Json → Option Json
  | object members => members.lookup name
  | _ => none

/-- The text of a string. -/
def string? : Json → Option String
  | string text => some text
  | _ => none

/-- The items of an array. -/
def items? : Json → Option (List Json)
  | array items => some items
  | _ => none

end Json

end WireSchema
