/-
Operands of instructions: constants, types and members, registers,
flags, labels, variables and host functions.
-/
import StackAsm.Machine.Register
import StackAsm.Name.Reference
import StackAsm.Number.Layout
import StackAsm.Source.Literal
import StackAsm.Text.Quoted

namespace StackAsm

/-- A constant written into an instruction. -/
inductive Constant where
  | i32 (value : Int32)
  | i64 (value : Int64)
  | f64 (value : Binary64)
  | bool (value : Bool)
  | char (value : Char)
  | str (value : String)
  | null
deriving DecidableEq, Repr

namespace Constant

/-- The constant a literal stands for; an integer takes 32 bits if they
hold it. -/
def ofLiteral : Literal → Constant
  | .int value =>
    if Int32.minValue.toInt ≤ value.toInt ∧ value.toInt ≤ Int32.maxValue.toInt then
      .i32 (Int32.ofInt value.toInt)
    else .i64 value
  | .float value => .f64 value
  | .str text => .str text
  | .char c => .char c
  | .bool value => .bool value
  | .null => .null

def isIntegral : Constant → Bool
  | .i32 _ | .i64 _ => true
  | _ => false

/-- Whether a register of that class can be loaded with the constant. -/
def fits (constant : Constant) : RegisterClass → Bool
  | .int | .index | .flags =>
    match constant with
    | .i32 _ | .i64 _ | .bool _ | .char _ => true
    | _ => false
  | .float =>
    match constant with
    | .f64 _ | .i32 _ | .i64 _ => true
    | _ => false
  | .str =>
    match constant with
    | .str _ | .null => true
    | _ => false
  | .exception => constant == .null

def display : Constant → String
  | .i32 value => toString value.toInt
  | .i64 value => toString value.toInt
  | .f64 value => FloatStyle.constant.render value
  | .bool value => if value then "true" else "false"
  | .char value => Text.quotedChar value
  | .str value => Text.quoted value
  | .null => "null"

end Constant

/-- Which variables of a method a slot counts. -/
inductive VariableKind where
  | argument
  | locals
deriving DecidableEq, Repr

inductive Operand where
  | const (value : Constant)
  | type (spec : TypeSpec)
  | nullType
  | field (reference : Reference)
  | method (reference : Reference)
  | register (r : Register)
  | flag (f : Flag)
  /-- A label by its index in the method's table; `target` is the index
  of the instruction it marks, once known. -/
  | label (index : UInt16) (target : Option UInt32)
  | var (kind : VariableKind) (slot : UInt16)
  | function (name : String)
deriving DecidableEq, Repr

namespace Operand

/-- The byte that tells what kind of operand follows. -/
def tag : Operand → UInt8
  | .const _ => 1
  | .type _ => 2
  | .nullType => 3
  | .field _ => 4
  | .method _ => 5
  | .register _ => 6
  | .flag _ => 7
  | .label _ _ => 8
  | .var _ _ => 9
  | .function _ => 10

/-- What a tag stands for. -/
def describeTag (tag : UInt8) : String :=
  match tag.toNat with
  | 1 => "constant"
  | 2 => "type"
  | 3 => "null type"
  | 4 => "field"
  | 5 => "method"
  | 6 => "register"
  | 7 => "flag"
  | 8 => "label"
  | 9 => "variable"
  | 10 => "function id"
  | _ => "unknown"

def describe (operand : Operand) : String := describeTag operand.tag

/-- The reference an operand holds. -/
def reference? : Operand → Option Reference
  | .type spec => some spec.reference
  | .field reference | .method reference => some reference
  | _ => none

end Operand

end StackAsm
