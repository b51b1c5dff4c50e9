/-
Quoted text, as listings and diagnostics show string and character
constants. Tab, carriage return, line feed, NUL, the backslash and the
quote in use are written as a backslash and one character; any other
character that cannot be shown is written by its code point in
hexadecimal between braces.
-/
import StackAsm.Text.Hex
import StackAsm.Text.Printable

namespace StackAsm.Text

/-- How `c` is written between two `quote` characters. -/
def escapeChar (quote c : Char) : List Char :=
  if c = '\x00' then ['\\', '0']
  else if c = '\t' then ['\\', 't']
  else if c = '\r' then ['\\', 'r']
  else if c = '\n' then ['\\', 'n']
  else if c = '\\' ∨ c = quote then ['\\', c]
  else if isPrintable c then [c]
  else ['\\', 'u', '\x7b'] ++ Nat.toDigits 16 c.toNat ++ ['\x7d']

/-- A text between double quotes. -/
def quoted (text : String) : String :=
  String.ofList ('"' :: text.toList.flatMap (escapeChar '"') ++ ['"'])

/-- A character between single quotes. -/
def quotedChar (c : Char) : String :=
  String.ofList ('\'' :: escapeChar '\'' c ++ ['\''])

end StackAsm.Text
