/-
The standard instruction set.
-/
import StackAsm.Machine.InstructionSet

namespace StackAsm.Standard

/-- First byte of the opcodes that ask the host for something. -/
def hostParent : UInt8 := 0xFE

/-- First byte of the opcodes that convert to text. -/
def convertParent : UInt8 := 0xFF

def parents : List UInt8 := [hostParent, convertParent]

/-- A form with a one-byte opcode. -/
def form (mnemonic : String) (code : UInt8) (args : List ArgumentKind)
    (lowering : LoweringRule) : Form :=
  ⟨mnemonic, .single code, args, .byKind, lowering⟩

/-- A form with a two-byte opcode. -/
def extended (mnemonic : String) (parent code : UInt8) (args : List ArgumentKind)
    (lowering : LoweringRule) : Form :=
  ⟨mnemonic, .extended parent code, args, .byKind, lowering⟩

/-- The forms. Where two of them fit the same arguments the first one is
taken, so pushing a register comes before pushing a constant. -/
def forms : List Form :=
  [form "nop" 0x00 [] .plain,
   ⟨"ldc", .single 0x01, [.register, .constant], .loadConstant, .loadConstant⟩,
   form "push" 0x03 [.register] .push,
   form "push" 0x02 [.constant] .push,
   form "pop" 0x04 [] .plain,
   form "pop" 0x05 [.register] .popRegister,
   form "dup" 0x06 [] .plain,
   form "inc" 0x07 [.numericRegister] .registerUpdate,
   form "dec" 0x08 [.numericRegister] .registerUpdate,
   form "clr" 0x09 [.register] .registerUpdate,
   form "add" 0x10 [] .plain,
   form "sub" 0x11 [] .plain,
   form "mul" 0x12 [] .plain,
   form "div" 0x13 [] .plain,
   form "rem" 0x14 [] .plain,
   form "neg" 0x15 [] .plain,
   form "and" 0x16 [] .plain,
   form "or" 0x17 [] .plain,
   form "xor" 0x18 [] .plain,
   form "not" 0x19 [] .plain,
   form "shl" 0x1A [] .plain,
   form "shr" 0x1B [] .plain,
   form "ldfd" 0x20 [.field] .field,
   form "ldfda" 0x21 [.field] .field,
   form "stfd" 0x22 [.field] .field,
   form "ldsfd" 0x23 [.field] .field,
   form "ldsfda" 0x24 [.field] .field,
   form "stsfd" 0x25 [.field] .field,
   form "ldrg" 0x28 [.argument] .variable,
   form "ldrga" 0x29 [.argument] .variable,
   form "strg" 0x2A [.argument] .variable,
   form "ldlc" 0x2B [.localVariable] .variable,
   form "ldlca" 0x2C [.localVariable] .variable,
   form "stlc" 0x2D [.localStore] .variable,
   form "ldel" 0x30 [.indexRegister] .element,
   form "ldela" 0x31 [.indexRegister] .element,
   form "stel" 0x32 [.indexRegister] .element,
   form "ldlen" 0x33 [] .plain,
   form "setf" 0x38 [.flag] .flag,
   form "clrf" 0x39 [.flag] .flag,
   form "ldfl" 0x3A [.flag] .flag,
   form "newobj" 0x40 [.type] .typeOperand,
   form "newarr" 0x41 [.type] .typeOperand,
   form "box" 0x42 [.type] .typeOperand,
   form "unbox" 0x43 [.type] .typeOperand,
   form "isinst" 0x44 [.type] .typeOperand,
   form "cast" 0x45 [.type] .typeOperand,
   form "ldtype" 0x46 [.typeOrNull] .typeOperand,
   form "ldnull" 0x47 [] .plain,
   form "conv" 0x48 [.primitiveType] .typeOperand,
   form "jmp" 0x50 [.label] .branch,
   form "jt" 0x51 [.label] .branch,
   form "jf" 0x52 [.label] .branch,
   form "jfl" 0x53 [.flag, .label] .flagBranch,
   form "jnfl" 0x54 [.flag, .label] .flagBranch,
   form "call" 0x60 [.method] .call,
   form "callx" 0x61 [.functionId] .callExternal,
   form "ret" 0x62 [] .plain,
   form "throw" 0x63 [] .plain,
   form "cmp" 0x70 [] .compareStack,
   form "cmp" 0x71 [.register, .register] .compareRegisters,
   extended "kbhit" hostParent 0x00 [] .plain,
   extended "rdkey" hostParent 0x01 [] .plain,
   extended "rdln" hostParent 0x02 [] .plain,
   extended "stind" hostParent 0x03 [] .plain,
   extended "tostr" convertParent 0x00 [] .plain,
   extended "tostr" convertParent 0x01 [.format] .format]

set_option maxRecDepth 4000 in
theorem find?_forms : TableFault.find? parents forms = none := by decide +kernel

end StackAsm.Standard

namespace StackAsm

/-- The standard instruction set. -/
def InstructionSet.standard : InstructionSet :=
  ⟨Standard.parents, Standard.forms, Standard.find?_forms⟩

end StackAsm
