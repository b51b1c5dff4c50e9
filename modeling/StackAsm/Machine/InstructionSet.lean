/-
Instruction sets: a table of forms in which every opcode is told apart
by its first bytes. A code is either a parent, and then every opcode that
starts with it has two bytes, or an opcode by itself.
-/
import StackAsm.Machine.Form

namespace StackAsm

/-- Why a table is no instruction set. -/
inductive TableFault where
  | duplicateOpcode (opcode : Opcode) (first second : String)
  | undeclaredParent (parent : UInt8) (mnemonic : String)
  | parentAsOpcode (code : UInt8) (mnemonic : String)
  | duplicateParent (code : UInt8)
  | tooManyArguments (mnemonic : String) (arity : Nat)
deriving DecidableEq, Repr

namespace TableFault

def message : TableFault → String
  | .duplicateOpcode opcode first second =>
    "opcode " ++ opcode.display ++ " assigned to both '" ++ first ++ "' and '" ++ second ++ "'"
  | .undeclaredParent parent mnemonic =>
    "'" ++ mnemonic ++ "' uses parent code " ++ Text.hexByte parent
      ++ " which is not declared as a parent"
  | .parentAsOpcode code mnemonic =>
    "'" ++ mnemonic ++ "' uses code " ++ Text.hexByte code
      ++ " which is reserved as a parent code"
  | .duplicateParent code => "parent code " ++ Text.hexByte code ++ " declared twice"
  | .tooManyArguments mnemonic arity =>
    "'" ++ mnemonic ++ "' declares " ++ toString arity
      ++ " arguments; at most 255 are encodable"

/-- The first parent that is declared again. -/
def ofParents? (seen : List UInt8) : List UInt8 → Option TableFault
  | [] => none
  | code :: rest =>
    if seen.contains code then some (.duplicateParent code) else ofParents? (code :: seen) rest

/-- What is wrong with the opcode of a form, other forms aside. -/
def ofOpcode? (parents : List UInt8) (form : Form) : Option TableFault :=
  match form.opcode with
  | .single code =>
    if parents.contains code then some (.parentAsOpcode code form.mnemonic) else none
  | .extended parent _ =>
    if parents.contains parent then none else some (.undeclaredParent parent form.mnemonic)

/-- What is wrong with a form behind those in `seen`. -/
def ofForm? (parents : List UInt8) (seen : List Form) (form : Form) : Option TableFault :=
  if form.arity > 255 then some (.tooManyArguments form.mnemonic form.arity)
  else
    (ofOpcode? parents form).or <|
      (seen.find? (·.opcode == form.opcode)).map fun first =>
        .duplicateOpcode form.opcode first.mnemonic form.mnemonic

/-- The first fault among forms behind those in `seen`. -/
def ofForms? (parents : List UInt8) (seen : List Form) : List Form → Option TableFault
  | [] => none
  | form :: rest => (ofForm? parents seen form).or (ofForms? parents (form :: seen) rest)

/-- The first fault of a table. -/
def find? (parents : List UInt8) (forms : List Form) : Option TableFault :=
  (ofParents? [] parents).or (ofForms? parents [] forms)

end TableFault

structure InstructionSet where
  /-- First bytes of two-byte opcodes. -/
  parents : List UInt8
  /-- The forms, in the order they are tried. -/
  forms : List Form
  sound : TableFault.find? parents forms = none

namespace InstructionSet

/-- The instruction set of a table, unless the table has a fault. -/
def build (parents : List UInt8) (forms : List Form) : Except TableFault InstructionSet :=
  match h : TableFault.find? parents forms with
  | none => .ok ⟨parents, forms, h⟩
  | some fault => .error fault

variable (set : InstructionSet)

def size : Nat := set.forms.length

def isParent (code : UInt8) : Bool := set.parents.contains code

/-- The form with that opcode. -/
def get? (opcode : Opcode) : Option Form := set.forms.find? (·.opcode == opcode)

/-- The forms of a mnemonic, in the order they are tried. -/
def overloads (mnemonic : String) : List Form := set.forms.filter (·.mnemonic == mnemonic)

/-- The forms of a mnemonic that take so many arguments. -/
def candidates (mnemonic : String) (arity : Nat) : List Form :=
  (set.overloads mnemonic).filter (·.arity == arity)

def isMnemonic (name : String) : Bool := set.forms.any (·.mnemonic == name)

end InstructionSet

end StackAsm
