/-
Symbols: the declarations a name can stand for. A symbol is identified
by its kind and its full dotted name; primitive types are built in and
external symbols live under a namespace declared to be elsewhere.
-/

namespace StackAsm

inductive SymbolKind where
  | type
  | field
  | method
  | primitive
  | external
deriving DecidableEq, Repr

namespace SymbolKind

/-- The byte that stands for the kind in binary files. -/
def code : SymbolKind → UInt8
  | .type => 1
  | .field => 2
  | .method => 3
  | .primitive => 4
  | .external => 5

def ofCode? (code : UInt8) : Option SymbolKind :=
  match code.toNat with
  | 1 => some .type
  | 2 => some .field
  | 3 => some .method
  | 4 => some .primitive
  | 5 => some .external
  | _ => none

theorem ofCode?_code (kind : SymbolKind) : ofCode? kind.code = some kind := by
  cases kind <;> rfl

end SymbolKind

/-- Names of the built-in types. -/
def primitiveNames : List String :=
  ["void", "bool", "char", "i8", "i16", "i32", "i64", "u8", "u16", "u32", "u64", "f32", "f64",
   "str", "obj"]

def isPrimitiveName (name : String) : Bool := primitiveNames.contains name

/-- A declaration, by kind and full name. -/
structure Symbol where
  kind : SymbolKind
  name : String
deriving DecidableEq, Repr

/-- The built-in type of that name. -/
def Symbol.primitive (name : String) : Symbol := ⟨.primitive, name⟩

end StackAsm
