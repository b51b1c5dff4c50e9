/-
Types of the values on the stack of the target machine.
-/
import StackAsm.Name.Symbol

namespace StackAsm

inductive StackType where
  | void
  | bool
  | char
  | i8
  | i16
  | i32
  | i64
  | u8
  | u16
  | u32
  | u64
  | f32
  | f64
  | str
  | obj
  | class (name : String)
  | struct (name : String)
  | array (element : StackType)
  | byRef (target : StackType)
  /-- Nothing is known about the value. -/
  | unknown
deriving DecidableEq, Repr, Inhabited

namespace StackType

/-- The built-in type of that name. -/
def ofPrimitive? (name : String) : Option StackType :=
  match name with
  | "void" => some .void
  | "bool" => some .bool
  | "char" => some .char
  | "i8" => some .i8
  | "i16" => some .i16
  | "i32" => some .i32
  | "i64" => some .i64
  | "u8" => some .u8
  | "u16" => some .u16
  | "u32" => some .u32
  | "u64" => some .u64
  | "f32" => some .f32
  | "f64" => some .f64
  | "str" => some .str
  | "obj" => some .obj
  | _ => none

/-- Whether a value has to be boxed to be passed as an object. -/
def isValueType : StackType → Bool
  | .str | .obj | .class _ | .array _ | .byRef _ | .void | .unknown => false
  | _ => true

/-- An array type of so many dimensions. -/
def arrayOf (type : StackType) (dims : Nat) : StackType := Nat.repeat .array dims type

/-- What an array holds. -/
def element : StackType → StackType
  | .array inner => inner
  | _ => .unknown

def display : StackType → String
  | .void => "void"
  | .bool => "bool"
  | .char => "char"
  | .i8 => "i8"
  | .i16 => "i16"
  | .i32 => "i32"
  | .i64 => "i64"
  | .u8 => "u8"
  | .u16 => "u16"
  | .u32 => "u32"
  | .u64 => "u64"
  | .f32 => "f32"
  | .f64 => "f64"
  | .str => "str"
  | .obj => "obj"
  | .class name => "class " ++ name
  | .struct name => "valuetype " ++ name
  | .array inner => inner.display ++ "[]"
  | .byRef inner => inner.display ++ "&"
  | .unknown => "?"

end StackType

end StackAsm
