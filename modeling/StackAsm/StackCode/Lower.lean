/-
Lowering of single instructions: each becomes a block of stack code. The
symbols and texts that the code names are collected in tables, each of
them once.
-/
import StackAsm.Bytes.StringHeap
import StackAsm.Machine.Form
import StackAsm.StackCode.Compare
import StackAsm.StackCode.Facts

namespace StackAsm

/-- Choices that change the code. -/
structure LoweringOptions where
  /-- Mark short methods for inlining. -/
  inlining : Bool := false
  /-- Leave array indices unchecked. -/
  unchecked : Bool := false
  /-- Leave out the stack guard of methods. -/
  unguarded : Bool := false
deriving DecidableEq, Repr

/-- Symbols and texts that code names by index. -/
structure StackTables where
  symbols : List Symbol := []
  strings : StringHeap := {}
deriving DecidableEq, Repr

/-- The index of a symbol, which is added at the end if it is new. -/
def StackTables.intern (tables : StackTables) (symbol : Symbol) : UInt32 × StackTables :=
  match tables.symbols.idxOf? symbol with
  | some index => (UInt32.ofNat index, tables)
  | none =>
    (UInt32.ofNat tables.symbols.length, { tables with symbols := tables.symbols ++ [symbol] })

abbrev Lower := EStateM LoweringFault StackTables

/-- The instruction being lowered and what surrounds it. -/
structure LoweringContext where
  facts : ProgramFacts
  options : LoweringOptions
  /-- Full name of the method. -/
  method : String
  /-- Place of the instruction in the method. -/
  index : Nat
  mnemonic : String

namespace LoweringContext

variable (ctx : LoweringContext)

/-- Fail because the instruction cannot have those operands. -/
def badOperands {α : Type} : Lower α := throw (.badOperands ctx.method ctx.mnemonic ctx.index)

/-- The index of the symbol a reference resolves to, with its name. -/
def symbol (reference : Reference) : Lower (UInt32 × String) :=
  match reference with
  | .pending reference => throw (.unresolved ctx.method reference.name)
  | .resolved symbol => return (← modifyGet (·.intern symbol), symbol.name)

/-- The index of a text. -/
def text (content : String) : Lower UInt32 :=
  modifyGet fun tables =>
    let (index, strings) := tables.strings.intern content
    (index, { tables with strings })

-- ==== constants

def constant : Constant → Lower StackConstant
  | .i32 value => return .i4 value
  | .i64 value => return .i8 value
  | .f64 value => return .r8 value
  | .bool value => return .bool value
  | .char value => return .char value
  | .str value => return .str (← text value)
  | .null => return .null

/-- A constant in the type the host keeps the register in. -/
def registerConstant (r : Register) (value : Constant) : Lower StackConstant :=
  match r.stackType, value with
  | .i64, .i32 value => return .i8 (Int64.ofInt value.toInt)
  | .i64, .bool value => return .i8 (if value then 1 else 0)
  | .i64, .char value => return .i8 (Int64.ofNat value.toNat)
  | .f64, .i32 value => return .r8 (Binary64.ofInt value.toInt)
  | .f64, .i64 value => return .r8 (Binary64.ofInt value.toInt)
  | _, _ => constant value

-- ==== families

/-- Instructions that stand for one operation. -/
def plainOp? (mnemonic : String) : Option StackOp :=
  match mnemonic with
  | "nop" => some .nop
  | "pop" => some .pop
  | "dup" => some .dup
  | "add" => some (.binary .add)
  | "sub" => some (.binary .sub)
  | "mul" => some (.binary .mul)
  | "div" => some (.binary .div)
  | "rem" => some (.binary .rem)
  | "neg" => some (.unary .neg)
  | "and" => some (.binary .and)
  | "or" => some (.binary .or)
  | "xor" => some (.binary .xor)
  | "not" => some (.unary .not)
  | "shl" => some (.binary .shl)
  | "shr" => some (.binary .shr)
  | "ldlen" => some .length
  | "ldnull" => some (.const .null)
  | "ret" => some .ret
  | "throw" => some .throw
  | "kbhit" => some (.callRoutine .keyAvailable)
  | "rdkey" => some (.callRoutine .readKey)
  | "rdln" => some (.callRoutine .readLine)
  | "stind" => some (.callRoutine .indirectStore)
  | "tostr" => some (.callRoutine .toText)
  | _ => none

def plain : Lower (List StackOp) :=
  match plainOp? ctx.mnemonic with
  | some op => return [op]
  | none => ctx.badOperands

/-- One in the type of a register. -/
def one (r : Register) : StackConstant :=
  if r.holds = .float then .r8 (Binary64.ofInt 1) else .i8 1

/-- What a cleared register holds. -/
def cleared (r : Register) : StackConstant :=
  match r.holds with
  | .float => .r8 (Binary64.ofInt 0)
  | .str | .exception => .null
  | _ => .i8 0

def registerUpdate (r : Register) : Lower (List StackOp) :=
  match ctx.mnemonic with
  | "inc" => return [.loadRegister r, .const (one r), .binary .add, .storeRegister r]
  | "dec" => return [.loadRegister r, .const (one r), .binary .sub, .storeRegister r]
  | "clr" => return [.const (cleared r), .storeRegister r]
  | _ => ctx.badOperands

def field (reference : Reference) : Lower (List StackOp) := do
  let (id, name) ← ctx.symbol reference
  let type := ctx.facts.fieldType name
  match ctx.mnemonic with
  | "ldfd" => return [.loadField false false id type]
  | "ldfda" => return [.loadField false true id type]
  | "stfd" => return [.storeField false id]
  | "ldsfd" => return [.loadField true false id type]
  | "ldsfda" => return [.loadField true true id type]
  | "stsfd" => return [.storeField true id]
  | _ => ctx.badOperands

def variableAccess (kind : VariableKind) (slot : UInt16) : Lower (List StackOp) :=
  match ctx.mnemonic, kind with
  | "ldrg", .argument | "ldlc", .locals => return [.var .load kind slot]
  | "ldrga", .argument | "ldlca", .locals => return [.var .address kind slot]
  | "strg", .argument | "stlc", .locals => return [.var .store kind slot]
  | _, _ => ctx.badOperands

def element (r : Register) : Lower (List StackOp) :=
  let checked := !ctx.options.unchecked
  match ctx.mnemonic with
  | "ldel" => return [.loadRegister r, .element .load checked]
  | "ldela" => return [.loadRegister r, .element .address checked]
  | "stel" => return [.loadRegister r, .element .store checked]
  | _ => ctx.badOperands

def flag (f : Flag) : Lower (List StackOp) :=
  match ctx.mnemonic with
  | "setf" => return [.const (.bool true), .writeFlag f]
  | "clrf" => return [.const (.bool false), .writeFlag f]
  | "ldfl" => return [.readFlag f]
  | _ => ctx.badOperands

def typeOperand (spec : TypeSpec) : Lower (List StackOp) := do
  let _ ← ctx.symbol spec.reference
  let type := ctx.facts.stackType spec
  match ctx.mnemonic with
  | "ldtype" => return [.token (some type)]
  | "newobj" => return [.newObject type]
  | "newarr" => return [.newArray type]
  | "box" => return [.box type]
  | "unbox" => return [.unbox type]
  | "isinst" => return [.isInstance type]
  | "cast" => return [.cast type]
  | "conv" => return [.convert type]
  | _ => ctx.badOperands

def branch (label : UInt16) : Lower (List StackOp) :=
  match ctx.mnemonic with
  | "jmp" => return [.branch .always label]
  | "jt" => return [.branch .ifTrue label]
  | "jf" => return [.branch .ifFalse label]
  | _ => ctx.badOperands

def flagBranch (f : Flag) (label : UInt16) : List StackOp :=
  [.readFlag f, .branch (if ctx.mnemonic = "jfl" then .ifTrue else .ifFalse) label]

def call (reference : Reference) : Lower (List StackOp) := do
  let (id, name) ← ctx.symbol reference
  let seen := ctx.facts.signature name
  return [.call id seen.params (!seen.isStatic) seen.result]

/-- Load a register for a compare. -/
def compareOperand (r : Register) : List StackOp :=
  .loadRegister r :: StackMethod.boxing r.stackType

/-- Lower an instruction of that family. -/
def lower (rule : LoweringRule) (operands : List Operand) : Lower (List StackOp) := do
  match rule with
  | .plain => ctx.plain
  | .loadConstant =>
    match operands with
    | [.register r, .const value] =>
      return [.const (← registerConstant r value), .storeRegister r]
    | _ => ctx.badOperands
  | .push =>
    match operands with
    | [.register r] => return [.loadRegister r]
    | [.const value] => return [.const (← constant value)]
    | _ => ctx.badOperands
  | .popRegister =>
    match operands with
    | [.register r] => return [.storeRegister r]
    | _ => ctx.badOperands
  | .registerUpdate =>
    match operands with
    | [.register r] => ctx.registerUpdate r
    | _ => ctx.badOperands
  | .field =>
    match operands with
    | [.field reference] => ctx.field reference
    | _ => ctx.badOperands
  | .variable =>
    match operands with
    | [.var kind slot] => ctx.variableAccess kind slot
    | _ => ctx.badOperands
  | .element =>
    match operands with
    | [.register r] => ctx.element r
    | _ => ctx.badOperands
  | .flag =>
    match operands with
    | [.flag f] => ctx.flag f
    | _ => ctx.badOperands
  | .typeOperand =>
    match operands with
    | [.type spec] => ctx.typeOperand spec
    | [.nullType] =>
      if ctx.mnemonic = "ldtype" then return [.token none] else ctx.badOperands
    | _ => ctx.badOperands
  | .branch =>
    match operands with
    | [.label index _] => ctx.branch index
    | _ => ctx.badOperands
  | .flagBranch =>
    match operands with
    | [.flag f, .label index _] => return ctx.flagBranch f index
    | _ => ctx.badOperands
  | .call =>
    match operands with
    | [.method reference] => ctx.call reference
    | _ => ctx.badOperands
  | .callExternal =>
    match operands with
    | [.function name] => return [.callHost (← text name)]
    | _ => ctx.badOperands
  | .format =>
    match operands with
    | [.const (.str format)] =>
      return [.const (.str (← text format)), .callRoutine .toTextFormatted]
    | _ => ctx.badOperands
  | .compareRegisters =>
    match operands with
    | [.register left, .register right] =>
      return compareOperand left ++ compareOperand right ++ [.callRoutine .compare]
    | _ => ctx.badOperands
  | .compareStack =>
    match operands with
    | [] => return [.pending .compare]
    | _ => ctx.badOperands

end LoweringContext

end StackAsm
