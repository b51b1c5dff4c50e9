/-
Programs: namespaces of types, types of fields, methods and nested
types, methods of variables, labels and instructions. Label offsets
count instructions. Lines say where a declaration was written; they
serve diagnostics and are not stored in binary files.
-/
import StackAsm.Machine.Opcode
import StackAsm.Machine.Operand

namespace StackAsm

-- ==== attributes

/-- A set of declaration attributes, one bit each. -/
structure Attributes where
  bits : UInt16 := 0
deriving DecidableEq, Repr, Inhabited

namespace Attributes

def publicBit : UInt16 := 0x0001
def privateBit : UInt16 := 0x0002
def staticBit : UInt16 := 0x0004
def sealedBit : UInt16 := 0x0008
def abstractBit : UInt16 := 0x0010
def interfaceBit : UInt16 := 0x0020
def structBit : UInt16 := 0x0040
def constBit : UInt16 := 0x0080
def readonlyBit : UInt16 := 0x0100
def virtualBit : UInt16 := 0x0200
def externalBit : UInt16 := 0x0400

def has (attrs : Attributes) (bit : UInt16) : Bool := attrs.bits &&& bit != 0

def set (attrs : Attributes) (bit : UInt16) : Attributes := ⟨attrs.bits ||| bit⟩

def isStatic (attrs : Attributes) : Bool := attrs.has staticBit

/-- An abstract or external method has no body. -/
def isBodiless (attrs : Attributes) : Bool := attrs.has abstractBit || attrs.has externalBit

end Attributes

/-- Modifier words and the bits they set, in the order listings show
them. -/
abbrev Modifiers := List (String × UInt16)

namespace Modifiers

open Attributes

def ofTypes : Modifiers :=
  [("pub", publicBit), ("priv", privateBit), ("stat", staticBit), ("seal", sealedBit),
   ("abst", abstractBit), ("iface", interfaceBit), ("struct", structBit)]

def ofFields : Modifiers :=
  [("pub", publicBit), ("priv", privateBit), ("stat", staticBit), ("const", constBit),
   ("ro", readonlyBit)]

def ofMethods : Modifiers :=
  [("pub", publicBit), ("priv", privateBit), ("stat", staticBit), ("virt", virtualBit),
   ("abst", abstractBit), ("extern", externalBit)]

/-- The bit a modifier word sets. -/
def bit? (table : Modifiers) (word : String) : Option UInt16 :=
  (table.find? (·.1 == word)).map (·.2)

/-- The words of the attributes that are set, a blank between them. -/
def display (table : Modifiers) (attrs : Attributes) : String :=
  " ".intercalate ((table.filter fun entry => attrs.has entry.2).map (·.1))

end Modifiers

-- ==== declarations

/-- A parameter or a local. -/
structure Variable where
  name : String
  type : TypeSpec
deriving DecidableEq, Repr

/-- A named place among a method's instructions. -/
structure Label where
  name : String
  index : UInt16
  /-- Index of the instruction it marks, once placed. -/
  offset : Option UInt32
deriving DecidableEq, Repr

structure Instruction where
  opcode : Opcode
  operands : List Operand
  line : Nat
deriving DecidableEq, Repr

structure MethodBody where
  instructions : List Instruction := []
  labels : List Label := []
  locals : List Variable := []
deriving DecidableEq, Repr, Inhabited

structure Method where
  name : String
  attrs : Attributes := {}
  result : TypeSpec := .void
  params : List Variable := []
  body : MethodBody := {}
  line : Nat := 0
deriving DecidableEq, Repr

structure Field where
  name : String
  attrs : Attributes := {}
  type : TypeSpec
  line : Nat := 0
deriving DecidableEq, Repr

structure TypeDecl where
  name : String
  attrs : Attributes := {}
  fields : List Field := []
  methods : List Method := []
  nested : List TypeDecl := []
  line : Nat := 0
deriving Repr, Inhabited

structure Namespace where
  /-- Full dotted path, empty for the global namespace. -/
  name : String
  types : List TypeDecl := []
deriving Repr

structure TypeAlias where
  name : String
  target : TypeSpec
deriving DecidableEq, Repr

structure Program where
  namespaces : List Namespace := []
  /-- Namespaces declared elsewhere. -/
  externals : List String := []
  aliases : List TypeAlias := []
deriving Repr, Inhabited

-- ==== equality

mutual

/-- Type declarations are compared part by part. -/
def TypeDecl.decEq : (a b : TypeDecl) → Decidable (a = b)
  | ⟨n, at₁, fs, ms, ts, l⟩, ⟨n', at₂, fs', ms', ts', l'⟩ =>
    match TypeDecl.decEqAll ts ts' with
    | isFalse h => isFalse fun e => h (by injection e)
    | isTrue h =>
      if h' : n = n' ∧ at₁ = at₂ ∧ fs = fs' ∧ ms = ms' ∧ l = l' then
        isTrue (by obtain ⟨rfl, rfl, rfl, rfl, rfl⟩ := h'; rw [h])
      else
        isFalse fun e => h' (by injection e; simp [*])

def TypeDecl.decEqAll : (a b : List TypeDecl) → Decidable (a = b)
  | [], [] => isTrue rfl
  | [], _ :: _ => isFalse (by simp)
  | _ :: _, [] => isFalse (by simp)
  | t :: ts, t' :: ts' =>
    match TypeDecl.decEq t t', TypeDecl.decEqAll ts ts' with
    | isTrue h, isTrue h' => isTrue (by rw [h, h'])
    | isFalse h, _ => isFalse fun e => h (by injection e)
    | _, isFalse h => isFalse fun e => h (by injection e)

end

instance : DecidableEq TypeDecl := TypeDecl.decEq

deriving instance DecidableEq for Namespace

deriving instance DecidableEq for Program

end StackAsm
