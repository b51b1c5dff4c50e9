/-
Why a program cannot be lowered. Every fault names the method.
-/
import StackAsm.Machine.Opcode

namespace StackAsm

inductive LoweringFault where
  | unresolved (method name : String)
  | tooManyLocals (method : String)
  | badOperands (method mnemonic : String) (index : Nat)
  | unknownOpcode (method : String) (opcode : Opcode)
  | unplacedLabel (method label : String)
  /-- No deferred call stands at the position. -/
  | patchTarget (method : String) (position : Nat)
deriving DecidableEq, Repr

def LoweringFault.message : LoweringFault → String
  | .unresolved method name => method ++ ": unresolved reference '" ++ name ++ "'"
  | .tooManyLocals method => method ++ ": too many locals"
  | .badOperands method mnemonic index =>
    method ++ ": instruction " ++ toString index ++ " (" ++ mnemonic
      ++ ") has operands it cannot lower"
  | .unknownOpcode method opcode => method ++ ": unknown opcode " ++ opcode.display
  | .unplacedLabel method label => method ++ ": label '" ++ label ++ "' has no offset"
  | .patchTarget method position =>
    method ++ ": no placeholder at IR position " ++ toString position

end StackAsm
