/-
The text of stack code: a line for each method head, local and
operation, and an empty line behind each method.
-/
import StackAsm.StackCode.Module

namespace StackAsm

namespace BinaryOp

def name : BinaryOp → String
  | .add => "add"
  | .sub => "sub"
  | .mul => "mul"
  | .div => "div"
  | .rem => "rem"
  | .and => "and"
  | .or => "or"
  | .xor => "xor"
  | .shl => "shl"
  | .shr => "shr"

end BinaryOp

def UnaryOp.name : UnaryOp → String
  | .neg => "neg"
  | .not => "not"

namespace StackModule

variable (module : StackModule)

def symbolName (id : UInt32) : String :=
  match module.symbols[id.toNat]? with
  | some symbol => symbol.name
  | none => "<bad symbol>"

def stringText (index : UInt32) : String := (module.strings.get? index).getD "<bad string>"

def constantText : StackConstant → String
  | .i4 value => "ldc.i4 " ++ toString value.toInt
  | .i8 value => "ldc.i8 " ++ toString value.toInt
  | .r8 value => "ldc.r8 " ++ FloatStyle.constant.render value
  | .bool value => "ldc.bool " ++ (if value then "true" else "false")
  | .char value => "ldc.char " ++ Text.quotedChar value
  | .str index => "ldstr " ++ Text.quoted (module.stringText index)
  | .null => "ldnull"

/-- The word for an access to `what`. -/
def accessWord (access : Access) (what : String) : String :=
  match access with
  | .load => "ld" ++ what
  | .address => "ld" ++ what ++ "a"
  | .store => "st" ++ what

def variableWord : VariableKind → String
  | .argument => "arg"
  | .locals => "loc"

def fieldWord (isStatic : Bool) : String := if isStatic then "sfld" else "fld"

def labelName (label : UInt16) : String := "L" ++ toString label.toNat

def branchWord : BranchWhen → String
  | .always => "br"
  | .ifTrue => "brtrue"
  | .ifFalse => "brfalse"

/-- An operation other than a mark. -/
def opText : StackOp → String
  | .nop => "nop"
  | .const value => module.constantText value
  | .dup => "dup"
  | .pop => "pop"
  | .binary op => op.name
  | .unary op => op.name
  | .var access kind slot => accessWord access (variableWord kind) ++ " " ++ toString slot.toNat
  | .loadField isStatic byAddress field type =>
    accessWord (if byAddress then .address else .load) (fieldWord isStatic) ++ " "
      ++ type.display ++ " " ++ module.symbolName field
  | .storeField isStatic field =>
    accessWord .store (fieldWord isStatic) ++ " " ++ module.symbolName field
  | .element access checked =>
    accessWord access "elem" ++ (if checked then "" else ".unchecked")
  | .length => "ldlen"
  | .newObject type => "newobj " ++ type.display
  | .newArray type => "newarr " ++ type.display
  | .box type => "box " ++ type.display
  | .unbox type => "unbox " ++ type.display
  | .isInstance type => "isinst " ++ type.display
  | .cast type => "castclass " ++ type.display
  | .token (some type) => "ldtoken " ++ type.display
  | .token none => "ldtoken null"
  | .convert type => "conv " ++ type.display
  | .mark label => labelName label
  | .branch condition label => branchWord condition ++ " " ++ labelName label
  | .call method args _ result =>
    "call " ++ result.display ++ " " ++ module.symbolName method ++ "(" ++ toString args.toNat
      ++ ")"
  | .callHost name => "call.host " ++ Text.quoted (module.stringText name)
  | .ret => "ret"
  | .throw => "throw"
  | .loadRegister r => "ldreg " ++ r.name
  | .storeRegister r => "streg " ++ r.name
  | .readFlag f => "ldflag " ++ f.name
  | .writeFlag f => "stflag " ++ f.name
  | .callRoutine routine => "call.runtime " ++ routine.name
  | .pending routine => "call.runtime " ++ routine.name ++ " ; unpatched"

def opLine : StackOp → String
  | .mark label => "  " ++ labelName label ++ ":"
  | op => "    " ++ module.opText op

def headLine (method : StackMethod) : String :=
  let params := method.params.toList.map fun p => p.type.display ++ " " ++ p.name
  ".method " ++ (if method.isStatic then "static " else "") ++ method.result.display ++ " "
    ++ method.name ++ "(" ++ ", ".intercalate params ++ ")"

def localLine (slot : Nat) (entry : TypedName) : String :=
  "  .local [" ++ toString slot ++ "] " ++ entry.type.display ++ " " ++ entry.name

def methodLines (method : StackMethod) : List String :=
  [headLine method] ++ (if method.inlined then ["  .inline"] else [])
    ++ method.locals.toList.mapIdx localLine ++ method.ops.map module.opLine ++ [""]

/-- The text of a module. -/
def render : String :=
  String.join ((module.methods.flatMap module.methodLines).map (· ++ "\n"))

end StackModule

end StackAsm
