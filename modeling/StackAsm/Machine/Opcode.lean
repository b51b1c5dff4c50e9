/-
Opcodes are one byte long, or two when the first byte is a parent code.
-/
import StackAsm.Text.Hex

namespace StackAsm

inductive Opcode where
  | single (code : UInt8)
  | extended (parent code : UInt8)
deriving DecidableEq, Repr

namespace Opcode

def bytes : Opcode → List UInt8
  | .single code => [code]
  | .extended parent code => [parent, code]

def display : Opcode → String
  | .single code => Text.hexByte code
  | .extended parent code => Text.hexByte parent ++ " " ++ Text.hexByte code

end Opcode

end StackAsm
