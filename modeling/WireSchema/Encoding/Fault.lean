import WireSchema.Text.Numeral

/-!
# Why encoding fails

An `EncodeError` is a mistake in the source value or in the program, found while
encoding.  A `Fault` is whatever ends a run early: such an error, a write beyond the
end of the buffer, or functions that call each other without end.  A write beyond the
end takes a place that is smaller than what its step writes, as when a constant stands
in for a descriptor; calls without end take a program that no request compiles to.
-/

namespace WireSchema

/-- What a source value was expected to be. -/
inductive Expectation where
  | record
  | number
  | nonNegativeLength
  /-- The place of the value holds a record, not a number. -/
  | recordValue
  | floatSlot
  deriving DecidableEq, Inhabited

/-- The expectation in words. -/
def Expectation.toText : Expectation → String
  | record => "a record"
  | number => "a number"
  | nonNegativeLength => "a non-negative length"
  | recordValue => "a record value"
  | floatSlot => "a 4- or 8-byte float slot"

/-- A mistake found while encoding. -/
inductive EncodeError where
  /-- A root without entry point. -/
  | unknownRoot (name : String)
  /-- A type, or a member of one, that the program does not define. -/
  | missingDefinition (name : String)
  /-- A discriminator that selects no member of its union. -/
  | unmappedDiscriminator (field : String) (value : Int64)
  /-- A symbol without a value. -/
  | unknownConstant (name : String)
  /-- A source value of the wrong shape. -/
  | typeMismatch (field : String) (expected : Expectation)
  /-- More bytes than may be allocated. -/
  | allocationFailed (size : Nat)
  /-- A buffer that cannot hold the packed type. -/
  | bufferTooSmall (needed available : Nat)
  deriving DecidableEq, Inhabited

/-- The text shown for an error. -/
def EncodeError.message : EncodeError → String
  | unknownRoot name => "no entry point for `" ++ name ++ "`"
  | missingDefinition name => "program has no definition for `" ++ name ++ "`"
  | unmappedDiscriminator field value =>
    "discriminator value " ++ Text.integer value.toInt ++ " of union field `" ++ field ++
      "` has no mapping"
  | unknownConstant name => "unknown constant `" ++ name ++ "`"
  | typeMismatch field expected => "field `" ++ field ++ "`: expected " ++ expected.toText
  | allocationFailed size => "allocation of " ++ Text.natural size ++ " bytes failed"
  | bufferTooSmall needed available =>
    "buffer too small: need " ++ Text.natural needed ++ " bytes, have " ++ Text.natural available

/-- What ends a run early. -/
inductive Fault where
  | error (cause : EncodeError)
  /-- A write beyond the end of the buffer. -/
  | outOfBounds
  /-- Functions that call each other without end. -/
  | endless
  deriving DecidableEq, Inhabited

end WireSchema
