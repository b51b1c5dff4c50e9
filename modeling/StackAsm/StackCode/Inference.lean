/-
Types on the stack, inferred by running through the operations once from
the start. Branches are not followed. A value taken from an empty stack
is of unknown type.
-/
import StackAsm.StackCode.Op

namespace StackAsm

/-- Types on the stack, the topmost first. -/
abbrev StackTypes := List StackType

namespace StackTypes

def top (stack : StackTypes) : StackType := stack.headD .unknown

/-- The type below the topmost one. -/
def second (stack : StackTypes) : StackType := top (stack.drop 1)

end StackTypes

def StackConstant.type : StackConstant → StackType
  | .i4 _ => .i32
  | .i8 _ => .i64
  | .r8 _ => .f64
  | .bool _ => .bool
  | .char _ => .char
  | .str _ => .str
  | .null => .obj

namespace Routine

/-- The stack behind a call of the routine. -/
def effect (routine : Routine) (stack : StackTypes) : StackTypes :=
  routine.result?.toList ++ stack.drop routine.pops

end Routine

namespace StackMethod

/-- The type of the variable in a slot. -/
def variableType (method : StackMethod) (kind : VariableKind) (slot : UInt16) : StackType :=
  let vars :=
    match kind with
    | .argument => method.params
    | .locals => method.locals
  match vars[slot.toNat]? with
  | some var => var.type
  | none => .unknown

/-- The stack behind an operation. -/
def effect (method : StackMethod) (stack : StackTypes) : StackOp → StackTypes
  | .nop | .mark _ | .branch .always _ | .callHost _ => stack
  | .const value => value.type :: stack
  | .token _ => .obj :: stack
  | .dup => stack.top :: stack
  | .pop | .branch .ifTrue _ | .branch .ifFalse _ | .throw | .storeRegister _ | .writeFlag _ =>
    stack.drop 1
  | .binary _ => stack.second :: stack.drop 2
  | .unary _ => stack.top :: stack.drop 1
  | .var .load kind slot => method.variableType kind slot :: stack
  | .var .address kind slot => .byRef (method.variableType kind slot) :: stack
  | .var .store _ _ => stack.drop 1
  | .loadField isStatic byAddress _ type =>
    (if byAddress then .byRef type else type) :: (if isStatic then stack else stack.drop 1)
  | .storeField isStatic _ => stack.drop (if isStatic then 1 else 2)
  | .element .load _ => stack.second.element :: stack.drop 2
  | .element .address _ => .byRef stack.second.element :: stack.drop 2
  | .element .store _ => stack.drop 3
  | .length => .i32 :: stack.drop 1
  | .newObject type => type :: stack
  | .newArray element => .array element :: stack.drop 1
  | .box _ => .obj :: stack.drop 1
  | .unbox type | .isInstance type | .cast type | .convert type => type :: stack.drop 1
  | .call _ args hasThis result =>
    let rest := stack.drop (args.toNat + hasThis.toNat)
    if result = .void then rest else result :: rest
  | .ret => []
  | .loadRegister r => r.stackType :: stack
  | .readFlag _ => .bool :: stack
  | .callRoutine routine | .pending routine => routine.effect stack

/-- The stack before the operation at a position. -/
def stackAt (method : StackMethod) (position : Nat) : StackTypes :=
  (method.ops.take position).foldl method.effect []

end StackMethod

end StackAsm
