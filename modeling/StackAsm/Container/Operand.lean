/-
Operands in binary form: a tag that says what follows, then the operand
itself. Texts and symbol names are heap indices. A label is stored by
its index alone; its target is known again once the method is read.
-/
import StackAsm.Bytes.Decode
import StackAsm.Bytes.Encode
import StackAsm.Machine.Operand

namespace StackAsm

-- ==== symbols

/-- Write a resolved reference. -/
def Reference.encode : Reference → Encode (List UInt8)
  | .resolved symbol => return symbol.kind.code :: (← Encode.heapString symbol.name)
  | .pending reference => throw (.unresolved reference.name)

def SymbolKind.decode : Decode SymbolKind := do
  let code ← Decode.byte
  match SymbolKind.ofCode? code with
  | some kind => return kind
  | none => Decode.invalid (.unknownSymbolKind code)

def Symbol.decode (heap : StringHeap) : Decode Symbol :=
  return ⟨← SymbolKind.decode, ← Decode.heapString heap⟩

def TypeSpec.encode (spec : TypeSpec) : Encode (List UInt8) :=
  return (← spec.reference.encode) ++ [spec.dims]

def TypeSpec.decode (heap : StringHeap) : Decode TypeSpec :=
  return ⟨.resolved (← Symbol.decode heap), ← Decode.byte⟩

-- ==== constants

namespace Constant

def encode : Constant → Encode (List UInt8)
  | .i32 value => return 1 :: bytes32 value.toUInt32
  | .i64 value => return 2 :: bytes64 value.toUInt64
  | .f64 value => return 3 :: bytes64 value.bits
  | .bool value => return [4, if value then 1 else 0]
  | .char value => return 5 :: bytes32 value.val
  | .str value => return 6 :: (← Encode.heapString value)
  | .null => return [7]

/-- The character with that code, if it is one. -/
def decodeChar : Decode Char := do
  let code ← Decode.word32
  if code.toNat.isValidChar then return Char.ofNat code.toNat
  else Decode.invalid (.invalidScalar code)

def decode (heap : StringHeap) : Decode Constant := do
  let kind ← Decode.byte
  match kind.toNat with
  | 1 => return .i32 (← Decode.word32).toInt32
  | 2 => return .i64 (← Decode.word64).toInt64
  | 3 => return .f64 ⟨← Decode.word64⟩
  | 4 => return .bool ((← Decode.byte) != 0)
  | 5 => return .char (← decodeChar)
  | 6 => return .str (← Decode.heapString heap)
  | 7 => return .null
  | _ => Decode.invalid (.unknownConstantKind kind)

end Constant

-- ==== operands

def VariableKind.code : VariableKind → UInt8
  | .argument => 0
  | .locals => 1

def VariableKind.decode : Decode VariableKind := do
  let code ← Decode.byte
  match code.toNat with
  | 0 => return .argument
  | 1 => return .locals
  | _ => Decode.invalid (.unknownVariableKind code)

def Register.decode : Decode Register := do
  let code ← Decode.byte
  match Register.ofCode? code with
  | some register => return register
  | none => Decode.invalid (.unknownRegister code)

def Flag.decode : Decode Flag := do
  let code ← Decode.byte
  match Flag.ofCode? code with
  | some flag => return flag
  | none => Decode.invalid (.unknownFlag code)

namespace Operand

/-- What follows the tag. -/
def encodePayload : Operand → Encode (List UInt8)
  | .const value => value.encode
  | .type spec => spec.encode
  | .nullType => return []
  | .field reference | .method reference => reference.encode
  | .register r => return [r.code]
  | .flag f => return [f.code]
  | .label index _ => return bytes16 index
  | .var kind slot => return kind.code :: bytes16 slot
  | .function name => Encode.heapString name

def encode (operand : Operand) : Encode (List UInt8) :=
  return operand.tag :: (← operand.encodePayload)

def decode (heap : StringHeap) : Decode Operand := do
  let tag ← Decode.byte
  match tag.toNat with
  | 1 => return .const (← Constant.decode heap)
  | 2 => return .type (← TypeSpec.decode heap)
  | 3 => return .nullType
  | 4 => return .field (.resolved (← Symbol.decode heap))
  | 5 => return .method (.resolved (← Symbol.decode heap))
  | 6 => return .register (← Register.decode)
  | 7 => return .flag (← Flag.decode)
  | 8 => return .label (← Decode.word16) none
  | 9 => return .var (← VariableKind.decode) (← Decode.word16)
  | 10 => return .function (← Decode.heapString heap)
  | _ => throw (.unknownOperand tag)

end Operand

end StackAsm
