/-!
# Quoted text

A text in double quotes, as JSON writes it: the quote, the backslash and the
control characters below U+0020 are escaped, everything else stands for itself.
Five control characters have a short escape, the others are written `\u00xx`.
-/

namespace WireSchema.Text

/-- The hexadecimal digit of `n % 16`, in lower case. -/
def hexDigit (n : Nat) : Char :=
  Nat.digitChar (n % 16)

/-- The escape of one character. -/
def escapeChar (c : Char) : List Char :=
  match c with
  | '"' => ['\\', '"']
  | '\\' => ['\\', '\\']
  | '\n' => ['\\', 'n']
  | '\r' => ['\\', 'r']
  | '\t' => ['\\', 't']
  | '\x08' => ['\\', 'b']
  | '\x0c' => ['\\', 'f']
  | c =>
    if c.toNat < 0x20 then
      ['\\', 'u', '0', '0', hexDigit (c.toNat / 16), hexDigit c.toNat]
    else [c]

/-- `text` between double quotes, with its characters escaped. -/
def quoted (text : String) : String :=
  String.ofList ('"' :: text.toList.flatMap escapeChar ++ ['"'])

example : quoted "a\"\\\n\x01/é" = "\"a\\\"\\\\\\n\\u0001/é\"" := by decide +kernel

end WireSchema.Text
