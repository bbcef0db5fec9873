import MountRegistry.Text.Digit
import MountRegistry.Text.Printable

/-
  Text in double quotes, as diagnostics show it. A quote and a backslash get a backslash; NUL, tab,
  line feed and carriage return have letters of their own; any other character that is not printable
  is written as its code point in hexadecimal.
-/

namespace MountRegistry.Text

/-- What stands for a character between double quotes. -/
def escape (c : Char) : List Char :=
  if c = '\x00' then ['\\', '0']
  else if c = '\t' then ['\\', 't']
  else if c = '\n' then ['\\', 'n']
  else if c = '\r' then ['\\', 'r']
  else if c = '"' then ['\\', '"']
  else if c = '\\' then ['\\', '\\']
  else if isPrintable c then [c]
  else ['\\', 'u', '\x7b'] ++ hexadecimal c.toNat ++ ['\x7d']

/-- The text between double quotes, with escapes for what would not show. -/
def quote (s : String) : String :=
  "\"" ++ String.ofList (s.toList.flatMap escape) ++ "\""

end MountRegistry.Text
