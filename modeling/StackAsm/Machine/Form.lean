/-
Instruction forms. A form is one way to write a mnemonic: its opcode, the
kinds of its arguments, how they are read and how the instruction is
lowered. One mnemonic may have several forms.
-/
import StackAsm.Machine.Argument

namespace StackAsm

/-- How the arguments of a form are read. -/
inductive ReadingRule where
  /-- Each argument by the kind of its position. -/
  | byKind
  /-- The same, and the constant must suit the register. -/
  | loadConstant
deriving DecidableEq, Repr

/-- Which family of instructions a form is lowered with. -/
inductive LoweringRule where
  | plain
  | loadConstant
  | push
  | popRegister
  | registerUpdate
  | field
  | variable
  | element
  | flag
  | typeOperand
  | branch
  | flagBranch
  | call
  | callExternal
  | compareStack
  | compareRegisters
  | format
deriving DecidableEq, Repr

structure Form where
  mnemonic : String
  opcode : Opcode
  args : List ArgumentKind
  reading : ReadingRule
  lowering : LoweringRule
deriving DecidableEq, Repr

/-- Why the arguments of a form are refused. -/
inductive FormRefusal where
  | count (expected found : Nat)
  | argument (position : Nat) (refusal : Refusal)
  | unfit (constant : Constant) (register : Register)
deriving DecidableEq, Repr

def FormRefusal.message : FormRefusal → String
  | .count expected found =>
    "expected " ++ toString expected ++ " argument(s), found " ++ toString found
  | .argument position refusal =>
    "argument " ++ toString position ++ ": " ++ refusal.message
  | .unfit constant register =>
    "constant " ++ constant.display ++ " cannot be loaded into register " ++ register.name

namespace Form

def arity (form : Form) : Nat := form.args.length

/-- The mnemonic and what it takes. -/
def signature (form : Form) : String :=
  if form.args.isEmpty then form.mnemonic
  else form.mnemonic ++ " " ++ ", ".intercalate (form.args.map ArgumentKind.describe)

/-- Argument reading of a whole instruction; the state lists the implicit
locals. -/
abbrev ReadArguments := EStateM FormRefusal (List String)

/-- Read the argument at a position counted from one. -/
def readAt (ctx : ArgumentContext) (position : Nat) (kind : ArgumentKind) (arg : Argument) :
    ReadArguments Operand := fun implicit =>
  match (ctx.read kind arg).run implicit with
  | .ok operand implicit => .ok operand implicit
  | .error refusal implicit => .error (.argument position refusal) implicit

/-- Read arguments from a position on, each by its kind. -/
def readFrom (ctx : ArgumentContext) (position : Nat) :
    List ArgumentKind → List Argument → ReadArguments (List Operand)
  | kind :: kinds, arg :: args => do
    let operand ← readAt ctx position kind arg
    let operands ← readFrom ctx (position + 1) kinds args
    return operand :: operands
  | _, _ => return []

/-- Read the arguments by the kinds of their positions. -/
def readByKind (form : Form) (ctx : ArgumentContext) (args : List Argument) :
    ReadArguments (List Operand) :=
  if args.length = form.arity then readFrom ctx 1 form.args args
  else throw (.count form.arity args.length)

/-- The constant and the register of a load that do not suit each
other. -/
def unfit? : List Operand → Option (Constant × Register)
  | [.register register, .const constant] =>
    if constant.fits register.holds then none else some (constant, register)
  | _ => none

/-- Read the arguments of the form. -/
def read (form : Form) (ctx : ArgumentContext) (args : List Argument) :
    ReadArguments (List Operand) := do
  let operands ← form.readByKind ctx args
  match form.reading with
  | .byKind => return operands
  | .loadConstant =>
    match unfit? operands with
    | none => return operands
    | some (constant, register) => throw (.unfit constant register)

end Form

end StackAsm
