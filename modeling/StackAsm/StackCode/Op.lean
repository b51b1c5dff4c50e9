/-
Stack code: what methods are lowered to. Symbols and texts are indices
into tables of the module that holds the method. Registers, flags and
the console belong to the host and are reached through operations of
their own and a few routines.
-/
import StackAsm.Machine.Operand
import StackAsm.StackCode.Type

namespace StackAsm

-- ==== host

/-- Routines of the host. -/
inductive Routine where
  /-- Compares two objects and sets the flags for it. -/
  | compare
  | toText
  | toTextFormatted
  /-- Stores a value at an address. -/
  | indirectStore
  | keyAvailable
  | readKey
  | readLine
  /-- Guards the stack at the start of a method. -/
  | ensureStack
deriving DecidableEq, Repr

namespace Routine

def name : Routine → String
  | .compare => "Host.Compare"
  | .toText => "Host.ToString"
  | .toTextFormatted => "Host.ToStringFormatted"
  | .indirectStore => "Host.IndirectStore"
  | .keyAvailable => "Host.KeyAvailable"
  | .readKey => "Host.ReadKey"
  | .readLine => "Host.ReadLine"
  | .ensureStack => "Host.EnsureStack"

/-- How many values the routine takes from the stack. -/
def pops : Routine → Nat
  | .compare | .toTextFormatted | .indirectStore => 2
  | .toText => 1
  | .keyAvailable | .readKey | .readLine | .ensureStack => 0

/-- The type of the value it leaves, if any. -/
def result? : Routine → Option StackType
  | .toText | .toTextFormatted | .readLine => some .str
  | .keyAvailable => some .bool
  | .readKey => some .char
  | .compare | .indirectStore | .ensureStack => none

end Routine

/-- The type in which the host keeps a register. -/
def Register.stackType (r : Register) : StackType :=
  match r.holds with
  | .int | .index | .flags => .i64
  | .float => .f64
  | .str => .str
  | .exception => .obj

-- ==== operations

inductive BinaryOp where
  | add | sub | mul | div | rem
  | and | or | xor | shl | shr
deriving DecidableEq, Repr

inductive UnaryOp where
  | neg | not
deriving DecidableEq, Repr

/-- What is done with a place that holds a value. -/
inductive Access where
  | load
  | address
  | store
deriving DecidableEq, Repr

/-- When a branch is taken. -/
inductive BranchWhen where
  | always
  | ifTrue
  | ifFalse
deriving DecidableEq, Repr

/-- A constant; a text is an index into the module's texts. -/
inductive StackConstant where
  | i4 (value : Int32)
  | i8 (value : Int64)
  | r8 (value : Binary64)
  | bool (value : Bool)
  | char (value : Char)
  | str (index : UInt32)
  | null
deriving DecidableEq, Repr

inductive StackOp where
  | nop
  | const (value : StackConstant)
  | dup
  | pop
  | binary (op : BinaryOp)
  | unary (op : UnaryOp)
  | var (access : Access) (kind : VariableKind) (slot : UInt16)
  /-- Load a field or, `byAddress`, its address. -/
  | loadField (isStatic byAddress : Bool) (field : UInt32) (type : StackType)
  | storeField (isStatic : Bool) (field : UInt32)
  /-- An array element; `checked` if the index is. -/
  | element (access : Access) (checked : Bool)
  | length
  | newObject (type : StackType)
  | newArray (element : StackType)
  | box (type : StackType)
  | unbox (type : StackType)
  | isInstance (type : StackType)
  | cast (type : StackType)
  | token (type : Option StackType)
  | convert (type : StackType)
  | mark (label : UInt16)
  | branch (condition : BranchWhen) (label : UInt16)
  | call (method : UInt32) (args : UInt16) (hasThis : Bool) (result : StackType)
  /-- A function of the host, by its name among the module's texts. -/
  | callHost (name : UInt32)
  | ret
  | throw
  | loadRegister (r : Register)
  | storeRegister (r : Register)
  | readFlag (f : Flag)
  | writeFlag (f : Flag)
  | callRoutine (routine : Routine)
  /-- Stands for a call whose arguments are still to be prepared. -/
  | pending (routine : Routine)
deriving DecidableEq, Repr

-- ==== methods, modules

/-- A parameter or local of stack code. -/
structure TypedName where
  name : String
  type : StackType
deriving DecidableEq, Repr

structure StackMethod where
  /-- Full name of the method. -/
  name : String
  isStatic : Bool
  result : StackType
  params : Array TypedName := #[]
  locals : Array TypedName := #[]
  ops : List StackOp := []
  /-- Whether calls of the method may be inlined. -/
  inlined : Bool := false
deriving DecidableEq, Repr

end StackAsm
