/-
Faults of binary files: why some bytes are no such file, or why a
program cannot be written as one. Each class of faults has a code.
-/
import StackAsm.Machine.Opcode

namespace StackAsm

/-- A rule of the file format that a chunk breaks. -/
inductive FormatDetail where
  | trailingBytes
  | nestedTooDeep
  /-- A length that no file can have. -/
  | overflow (what : String)
  | tooMany (what : String) (count : Nat)
  | unknownHeaderFlags (flags : UInt8)
  | misplacedSegment (kind : UInt8) (place : String)
  | children (segment : String) (count : UInt32)
  | unnamedParameter (method : String)
  | instructionCount (method : String) (declared : UInt32) (found : Nat)
  | undeclaredLabel (method : String) (index : UInt16)
  | unplacedLabel (label method : String)
  | unknownSymbolKind (code : UInt8)
  | unknownRegister (code : UInt8)
  | unknownFlag (code : UInt8)
  | unknownVariableKind (code : UInt8)
  | unknownConstantKind (code : UInt8)
  | invalidScalar (code : UInt32)
  | described (text : String)
deriving DecidableEq, Repr

/-- How operands differ from what their instruction takes. -/
inductive OperandFault where
  | count (expected found : Nat)
  | kind (position : Nat) (found expected : String)
deriving DecidableEq, Repr

inductive FormatFault where
  | invalidMagic (found : List UInt8)
  | unsupportedVersion (found : UInt16)
  | endOfInput (context : String)
  | unknownSegment (found : UInt8)
  | unknownOpcode (opcode : Opcode)
  | unknownOperand (found : UInt8)
  | badLabelOffset (method : String) (offset : UInt32)
  | heapIndex (index : UInt32) (size : Nat)
  | invalidText (chunk : String)
  | countOutOfRange (context : String)
  | invalid (chunk : String) (detail : FormatDetail)
  | unresolved (name : String)
  | operands (mnemonic : String) (fault : OperandFault)
deriving DecidableEq, Repr

/-- The most entries a count in a file may announce. -/
def countLimit : Nat := 0x100000

namespace FormatDetail

def message : FormatDetail → String
  | .trailingBytes => "trailing bytes"
  | .nestedTooDeep => "types nested too deeply"
  | .overflow what => what ++ " overflow"
  | .tooMany what count =>
    what ++ " count " ++ toString count ++ " exceeds hard limit " ++ toString countLimit
  | .unknownHeaderFlags flags => "unknown header flags 0x" ++ Text.hexByte flags
  | .misplacedSegment kind place =>
    "segment kind " ++ toString kind.toNat ++ " not allowed in " ++ place
  | .children segment count => segment ++ " segment with " ++ toString count.toNat ++ " children"
  | .unnamedParameter method => "unnamed parameter in " ++ method
  | .instructionCount method declared found =>
    method ++ " declares " ++ toString declared.toNat ++ " instructions, code holds "
      ++ toString found
  | .undeclaredLabel method index =>
    method ++ " branches to undeclared label " ++ toString index.toNat
  | .unplacedLabel label method =>
    "label '" ++ label ++ "' in " ++ method ++ " has no instruction offset"
  | .unknownSymbolKind code => "unknown symbol kind " ++ toString code.toNat
  | .unknownRegister code => "unknown register " ++ toString code.toNat
  | .unknownFlag code => "unknown flag " ++ toString code.toNat
  | .unknownVariableKind code => "unknown variable kind " ++ toString code.toNat
  | .unknownConstantKind code => "unknown constant kind " ++ toString code.toNat
  | .invalidScalar code => "invalid char scalar 0x" ++ Text.hexUpper code.toNat
  | .described text => text

end FormatDetail

def OperandFault.message : OperandFault → String
  | .count expected found =>
    "expected " ++ toString expected ++ " operand(s), found " ++ toString found
  | .kind position found expected =>
    "operand " ++ toString position ++ " is a " ++ found ++ ", expected " ++ expected

namespace FormatFault

/-- The code of the fault's class. -/
def code : FormatFault → String
  | .invalidMagic _ => "CPB001"
  | .unsupportedVersion _ => "CPB002"
  | .endOfInput _ => "CPB003"
  | .unknownSegment _ => "CPB004"
  | .unknownOpcode _ => "CPB005"
  | .unknownOperand _ => "CPB006"
  | .badLabelOffset _ _ => "CPB007"
  | .heapIndex _ _ => "CPB008"
  | .invalidText _ => "CPB009"
  | .countOutOfRange _ => "CPB010"
  | .invalid _ _ => "CPB011"
  | .unresolved _ => "CPB012"
  | .operands _ _ => "CPB013"

def message : FormatFault → String
  | .invalidMagic found =>
    "invalid magic header: found [" ++ ", ".intercalate (found.map Text.hexByte) ++ "]"
  | .unsupportedVersion found => "unsupported format version " ++ toString found.toNat
  | .endOfInput context => "unexpected end of input while reading " ++ context
  | .unknownSegment found => "unknown segment kind " ++ toString found.toNat
  | .unknownOpcode opcode => "unknown opcode " ++ opcode.display
  | .unknownOperand found => "unknown operand discriminator " ++ toString found.toNat
  | .badLabelOffset method offset =>
    "label offset " ++ toString offset.toNat ++ " in method '" ++ method
      ++ "' is not on an instruction boundary"
  | .heapIndex index size =>
    "string heap index " ++ toString index.toNat ++ " out of range (heap holds "
      ++ toString size ++ ")"
  | .invalidText chunk => "invalid UTF-8 in " ++ chunk
  | .countOutOfRange context => "count out of range: " ++ context
  | .invalid chunk detail => "invalid " ++ chunk ++ ": " ++ detail.message
  | .unresolved name => "reference '" ++ name ++ "' was never resolved"
  | .operands mnemonic fault =>
    "operands of '" ++ mnemonic ++ "' do not match its definition: " ++ fault.message

end FormatFault

end StackAsm
