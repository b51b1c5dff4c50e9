/-
Arguments of instructions as they are written, and how each position of
an instruction reads its argument: the kind of the position decides what
it takes and which operand comes out.

Storing to an unknown local declares it, unless the method has declared
its locals. Such implicit locals are the state of argument reading; they
stay declared when a later argument is refused.
-/
import StackAsm.Program.Lookup

namespace StackAsm

/-- What one argument position takes. -/
inductive ArgumentKind where
  | constant
  | register
  /-- An integer, index or float register. -/
  | numericRegister
  | indexRegister
  | flag
  | type
  | typeOrNull
  | primitiveType
  | field
  | method
  | label
  | argument
  | localVariable
  /-- A local that is stored to, perhaps an implicit one. -/
  | localStore
  | functionId
  | format
deriving DecidableEq, Repr

namespace ArgumentKind

def describe : ArgumentKind → String
  | .constant => "constant"
  | .register => "register"
  | .numericRegister => "numeric register"
  | .indexRegister => "index register"
  | .flag => "flag"
  | .type => "type"
  | .typeOrNull => "type or null"
  | .primitiveType => "primitive type"
  | .field => "field"
  | .method => "method"
  | .label => "label"
  | .argument => "argument"
  | .localVariable | .localStore => "local"
  | .functionId => "function id"
  | .format => "format string"

/-- Whether an operand may stand in the position. -/
def accepts : ArgumentKind → Operand → Bool
  | .constant, .const _ => true
  | .register, .register _ => true
  | .numericRegister, .register r => r.isNumeric
  | .indexRegister, .register r => r.isIndex
  | .flag, .flag _ => true
  | .type, .type _ => true
  | .primitiveType, .type _ => true
  | .typeOrNull, .type _ => true
  | .typeOrNull, .nullType => true
  | .field, .field _ => true
  | .method, .method _ => true
  | .label, .label _ _ => true
  | .argument, .var .argument _ => true
  | .localVariable, .var .locals _ => true
  | .localStore, .var .locals _ => true
  | .functionId, .function _ => true
  | .format, .const (.str _) => true
  | _, _ => false

/-- Whether the position takes that register. -/
def takesRegister (kind : ArgumentKind) (r : Register) : Bool := kind.accepts (.register r)

end ArgumentKind

-- ==== arguments as written

inductive ArgumentToken where
  | literal (value : Literal)
  | name (text : String) (dims : UInt8)
deriving DecidableEq, Repr

/-- An argument and the column it starts in. -/
structure Argument where
  token : ArgumentToken
  column : Nat
deriving DecidableEq, Repr

namespace Argument

def describe (arg : Argument) : String :=
  match arg.token with
  | .literal (.str text) => Text.quoted text
  | .literal (.char c) => Text.quotedChar c
  | .literal (.int value) => toString value.toInt
  | .literal (.float value) => FloatStyle.plain.render value
  | .literal (.bool value) => if value then "true" else "false"
  | .literal .null => "null"
  | .name text dims => text ++ String.join (List.replicate dims.toNat "[]")

/-- The argument as a name without brackets. -/
def plainName? (arg : Argument) : Option String :=
  match arg.token with
  | .name text dims => if dims = 0 then some text else none
  | .literal _ => none

/-- The slot of the variable an argument gives by number or by name. -/
def slot? (arg : Argument) (vars : List Variable) : Option UInt16 :=
  match arg.token with
  | .literal (.int value) =>
    if 0 ≤ value.toInt ∧ value.toInt < vars.length then some (UInt16.ofNat value.toInt.toNat)
    else none
  | .literal _ => none
  | .name _ _ =>
    arg.plainName?.bind fun name =>
      (vars.findIdx? (·.name == name)).map UInt16.ofNat

end Argument

-- ==== reading

/-- Why an argument is refused. -/
inductive Refusal where
  | mismatch (expected : ArgumentKind) (found : Argument)
  | undefinedLabel (name : String)
  | unknownLocal (name : String)
deriving DecidableEq, Repr

def Refusal.message : Refusal → String
  | .mismatch expected found =>
    "expected " ++ expected.describe ++ ", found '" ++ found.describe ++ "'"
  | .undefinedLabel name => "undefined label '" ++ name ++ "'"
  | .unknownLocal name => "unknown local '" ++ name ++ "'"

/-- What arguments of one instruction are read against. -/
structure ArgumentContext where
  scope : Scope
  file : String
  line : Nat
  params : List Variable
  locals : List Variable
  /-- Whether the method has declared its locals. -/
  localsDeclared : Bool
  labels : List Label
deriving Repr

/-- Argument reading; the state lists the implicit locals. -/
abbrev ReadArgument := EStateM Refusal (List String)

namespace ArgumentContext

/-- A reference written in this context. -/
def pending (ctx : ArgumentContext) (kind : ReferenceKind) (name : String) (column : Nat) :
    Reference :=
  .pending ⟨name, kind, ctx.scope, ⟨ctx.file, ctx.line, some column⟩⟩

def readRegister (kind : ArgumentKind) (arg : Argument) : ReadArgument Operand :=
  match arg.plainName?.bind Register.ofName? with
  | some register =>
    if kind.takesRegister register then return .register register
    else throw (.mismatch kind arg)
  | none => throw (.mismatch kind arg)

/-- The type written as `name`; built-in types need no lookup. -/
def typeReference (ctx : ArgumentContext) (name : String) (column : Nat) : Reference :=
  if isPrimitiveName name then .resolved (.primitive name) else ctx.pending .type name column

def readType (ctx : ArgumentContext) (kind : ArgumentKind) (arg : Argument) :
    ReadArgument Operand :=
  match arg.token with
  | .literal .null => if kind = .typeOrNull then return .nullType else throw (.mismatch kind arg)
  | .literal _ => throw (.mismatch kind arg)
  | .name text dims =>
    if (Register.ofName? text).isSome || (Flag.ofName? text).isSome then
      throw (.mismatch kind arg)
    else if kind = .primitiveType ∧ (dims ≠ 0 ∨ ¬ isPrimitiveName text) then
      throw (.mismatch kind arg)
    else return .type ⟨ctx.typeReference text arg.column, dims⟩

/-- The name of a member, which no register or built-in type has. -/
def readMember (kind : ArgumentKind) (arg : Argument) : ReadArgument String :=
  match arg.plainName? with
  | some name =>
    if (Register.ofName? name).isSome || isPrimitiveName name then throw (.mismatch kind arg)
    else return name
  | none => throw (.mismatch kind arg)

def readLabel (ctx : ArgumentContext) (arg : Argument) : ReadArgument Operand :=
  match arg.plainName? with
  | none => throw (.mismatch .label arg)
  | some name =>
    match ctx.labels.find? (·.name == name) with
    | some label => return .label label.index none
    | none => throw (.undefinedLabel name)

/-- The implicit local at a place behind the declared ones. -/
def implicitLocal (ctx : ArgumentContext) (place : Nat) : Operand :=
  .var .locals (UInt16.ofNat (ctx.locals.length + place))

def readLocal (ctx : ArgumentContext) (kind : ArgumentKind) (arg : Argument) :
    ReadArgument Operand := do
  match arg.slot? ctx.locals, arg.plainName? with
  | some slot, _ => return .var .locals slot
  | none, none => throw (.mismatch kind arg)
  | none, some name =>
    let implicit ← get
    match implicit.idxOf? name with
    | some place => return ctx.implicitLocal place
    | none =>
      if kind = .localStore ∧ ¬ ctx.localsDeclared then
        if (Register.ofName? name).isSome || name.toList.contains '.' then
          throw (.mismatch kind arg)
        else
          set (implicit ++ [name])
          return ctx.implicitLocal implicit.length
      else throw (.unknownLocal name)

/-- Read the argument of a position of that kind. -/
def read (ctx : ArgumentContext) (kind : ArgumentKind) (arg : Argument) :
    ReadArgument Operand :=
  match kind with
  | .constant =>
    match arg.token with
    | .literal value => return .const (.ofLiteral value)
    | .name _ _ => throw (.mismatch kind arg)
  | .register | .numericRegister | .indexRegister => readRegister kind arg
  | .flag =>
    match arg.plainName?.bind Flag.ofName? with
    | some flag => return .flag flag
    | none => throw (.mismatch kind arg)
  | .type | .typeOrNull | .primitiveType => ctx.readType kind arg
  | .field => return .field (ctx.pending .field (← readMember kind arg) arg.column)
  | .method => return .method (ctx.pending .method (← readMember kind arg) arg.column)
  | .label => ctx.readLabel arg
  | .argument =>
    match arg.slot? ctx.params with
    | some slot => return .var .argument slot
    | none => throw (.mismatch kind arg)
  | .localVariable | .localStore => ctx.readLocal kind arg
  | .functionId =>
    match arg.token with
    | .literal (.str text) =>
      if text.isEmpty then throw (.mismatch kind arg) else return .function text
    | _ => throw (.mismatch kind arg)
  | .format =>
    match arg.token with
    | .literal (.str text) => return .const (.str text)
    | _ => throw (.mismatch kind arg)

end ArgumentContext

end StackAsm
