/-
Method code: the instructions one behind the other, each an opcode, the
number of its operands and the operands. Offsets of instructions count
bytes; there is one more for the end of the code.
-/
import StackAsm.Container.Operand
import StackAsm.Machine.InstructionSet

namespace StackAsm

-- ==== operands

namespace Form

/-- The first operand, counted from `position`, that does not suit its
place. -/
def misfit? (position : Nat) : List ArgumentKind → List Operand → Option OperandFault
  | kind :: kinds, operand :: operands =>
    if kind.accepts operand then misfit? (position + 1) kinds operands
    else some (.kind position operand.describe kind.describe)
  | _, _ => none

/-- How operands differ from what the form takes. -/
def operandFault? (form : Form) (operands : List Operand) : Option OperandFault :=
  if operands.length = form.arity then misfit? 1 form.args operands
  else some (.count form.arity operands.length)

/-- Write operands that suit the form. -/
def encode (form : Form) (operands : List Operand) : Encode (List UInt8) := do
  match form.operandFault? operands with
  | some fault => throw (.operands form.mnemonic fault)
  | none => return UInt8.ofNat operands.length :: (← Encode.all operands Operand.encode)

/-- Read operands that suit the form. -/
def decode (form : Form) (heap : StringHeap) : Decode (List Operand) := do
  let count := (← Decode.byte).toNat
  if count ≠ form.arity then throw (.operands form.mnemonic (.count form.arity count))
  let operands ← Decode.times count fun _ => Operand.decode heap
  match form.operandFault? operands with
  | some fault => throw (.operands form.mnemonic fault)
  | none => return operands

end Form

-- ==== instructions

/-- Code bytes and the offset of every instruction and of the end. -/
structure Code where
  bytes : List UInt8
  offsets : List UInt32
deriving DecidableEq, Repr

namespace InstructionSet

variable (set : InstructionSet)

/-- Read an opcode; a parent code is followed by a second byte. -/
def decodeOpcode : Decode Opcode := do
  let first ← Decode.byte
  if set.isParent first then return .extended first (← Decode.byte) else return .single first

def encodeInstruction (instruction : Instruction) : Encode (List UInt8) :=
  match set.get? instruction.opcode with
  | none => throw (.unknownOpcode instruction.opcode)
  | some form => return instruction.opcode.bytes ++ (← form.encode instruction.operands)

def decodeInstruction (heap : StringHeap) : Decode Instruction := do
  let opcode ← set.decodeOpcode
  match set.get? opcode with
  | none => throw (.unknownOpcode opcode)
  | some form => return ⟨opcode, ← form.decode heap, 0⟩

-- ==== code

/-- An offset in the code, which must fit four bytes. -/
def checkOffset (offset : Nat) : Except FormatFault UInt32 :=
  if offset < UInt32.size then .ok (UInt32.ofNat offset)
  else .error (.countOutOfRange "method code length")

/-- Write instructions that start at an offset. -/
def encodeFrom (offset : Nat) : List Instruction → Encode Code
  | [] => return ⟨[], [← Encode.lift (checkOffset offset)]⟩
  | instruction :: rest => do
    let here ← Encode.lift (checkOffset offset)
    let bytes ← set.encodeInstruction instruction
    let code ← encodeFrom (offset + bytes.length) rest
    return ⟨bytes ++ code.bytes, here :: code.offsets⟩

/-- Write the code of a method. -/
def encodeCode (instructions : List Instruction) : Encode Code := set.encodeFrom 0 instructions

/-- Read instructions to the end of the input, each with its offset. An
instruction has at least one byte, so `fuel` bounds their number if it
bounds the bytes. -/
def decodeFrom (heap : StringHeap) : Nat → Decode (List (Nat × Instruction))
  | 0 => return []
  | fuel + 1 => do
    let input ← get
    if input.rest.isEmpty then return []
    else
      let instruction ← set.decodeInstruction heap
      let rest ← decodeFrom heap fuel
      return (input.position, instruction) :: rest

/-- Read the code of a method: each instruction with its offset. -/
def decodeCode (heap : StringHeap) (code : List UInt8) :
    Except FormatFault (List (Nat × Instruction)) :=
  match (set.decodeFrom heap code.length).run { chunk := "method code", rest := code } with
  | .ok instructions _ => .ok instructions
  | .error fault _ => .error fault

end InstructionSet

end StackAsm
