/-
Hexadecimal text: opcode codes, byte offsets and escapes are written in
base sixteen, some padded with zeros to a fixed width.
-/

namespace StackAsm.Text

/-- Fill `text` up on the left with `fill` to at least `width`
characters. -/
def padLeft (fill : Char) (width : Nat) (text : String) : String :=
  String.ofList (List.replicate (width - text.length) fill) ++ text

/-- Lower-case hexadecimal digits, no leading zeros. -/
def hexLower (n : Nat) : String :=
  String.ofList (Nat.toDigits 16 n)

/-- Upper-case hexadecimal digits, no leading zeros. -/
def hexUpper (n : Nat) : String :=
  String.ofList ((Nat.toDigits 16 n).map Char.toUpper)

/-- A byte as two upper-case digits. -/
def hexByte (byte : UInt8) : String :=
  padLeft '0' 2 (hexUpper byte.toNat)

/-- An offset as at least four upper-case digits. -/
def hexOffset (offset : Nat) : String :=
  padLeft '0' 4 (hexUpper offset)

end StackAsm.Text
