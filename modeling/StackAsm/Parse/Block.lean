/-
Open blocks of a file being read. Namespaces and types nest; a type may
have one method open, and that method its block of locals. A block that
opens on a line which failed to parse is passed over whole.
-/
import StackAsm.Parse.Fault
import StackAsm.Program.Branches

namespace StackAsm

theorem length_noInstructions : 0 = ([] : List Instruction).length := rfl

/-- A method whose body is being read. -/
structure OpenMethod where
  /-- The method so far; its instructions stand apart. -/
  method : Method
  /-- The instructions so far, last first. -/
  instructions : List Instruction := []
  /-- How many instructions there are. -/
  size : Nat := 0
  size_eq : size = instructions.length := by exact length_noInstructions
  /-- For each label the line it was last seen on. -/
  labelLines : List Nat := []
  fixes : PatchQueue OpenBody BranchFault := {}
  /-- Whether a block of locals was started. -/
  localsSeen : Bool := false
  /-- Whether a block of locals was closed. -/
  localsDeclared : Bool := false
  /-- The line of the block of locals, while it is open. -/
  localsLine : Option Nat := none

namespace OpenMethod

/-- How many labels a method can have. -/
def labelLimit : Nat := UInt16.size

/-- The method with room for the labels that its body will place. -/
def start (method : Method) (reserved : List (String × Nat)) : OpenMethod :=
  let kept := reserved.take labelLimit
  let labels := kept.mapIdx fun index entry => ⟨entry.1, UInt16.ofNat index, none⟩
  { method := { method with body := { method.body with labels } }
    labelLines := kept.map (·.2) }

def labels (m : OpenMethod) : List Label := m.method.body.labels

def locals (m : OpenMethod) : List Variable := m.method.body.locals

def setLabels (m : OpenMethod) (labels : List Label) : OpenMethod :=
  { m with method := { m.method with body := { m.method.body with labels } } }

def setLocals (m : OpenMethod) (locals : List Variable) : OpenMethod :=
  { m with method := { m.method with body := { m.method.body with locals } } }

/-- Index of the next instruction. -/
def nextOffset (m : OpenMethod) : UInt32 := UInt32.ofNat m.size

/-- Place a label at the next instruction. -/
def placeLabel (m : OpenMethod) (name : String) (line : Nat) : Except LabelFault OpenMethod :=
  match m.labels.findIdx? (·.name == name) with
  | some place =>
    if (m.labels[place]?.bind Label.offset).isSome then .error (.duplicate name)
    else
      let placed := m.labels.modify place fun label => { label with offset := some m.nextOffset }
      .ok { m.setLabels placed with labelLines := m.labelLines.set place line }
  | none =>
    if m.labels.length < labelLimit then
      let label : Label := ⟨name, UInt16.ofNat m.labels.length, some m.nextOffset⟩
      .ok { m.setLabels (m.labels ++ [label]) with labelLines := m.labelLines ++ [line] }
    else .error .tooMany

/-- The fixes for the labels among operands, counted from a slot. -/
def fixesFrom (position : UInt32) (slot : Nat) :
    List Operand → List (Patch OpenBody BranchFault)
  | [] => []
  | .label index _ :: rest =>
    branchFix ⟨position, UInt16.ofNat slot⟩ index :: fixesFrom position (slot + 1) rest
  | _ :: rest => fixesFrom position (slot + 1) rest

/-- Append an instruction and the locals it declares. -/
def addInstruction (m : OpenMethod) (instruction : Instruction) (implicit : List String) :
    OpenMethod :=
  let added := implicit.map fun name => ⟨name, TypeSpec.object⟩
  { m.setLocals (m.locals ++ added) with
    instructions := instruction :: m.instructions
    size := m.size + 1
    size_eq := congrArg (· + 1) m.size_eq
    fixes := (fixesFrom m.nextOffset 0 instruction.operands).foldl PatchQueue.enqueue m.fixes }

/-- The finished method. -/
def finish (m : OpenMethod) : Method :=
  { m.method with body := { m.method.body with instructions := m.instructions.reverse } }

end OpenMethod

/-- A type whose body is being read. -/
structure OpenType where
  decl : TypeDecl
  /-- Full name of the type. -/
  full : String
  /-- Namespace the type goes to, unless another type nests it. -/
  space : String
  method : Option OpenMethod := none

inductive Block where
  | space (line : Nat)
  | type (open_ : OpenType)
  /-- Opened on a line that failed to parse. -/
  | skipped (line : Nat)

namespace Block

/-- How many braces the block has open. -/
def depth : Block → Nat
  | .space _ | .skipped _ => 1
  | .type t =>
    match t.method with
    | none => 1
    | some m => if m.localsLine.isSome then 3 else 2

def isSkipped : Block → Bool
  | .skipped _ => true
  | _ => false

/-- What the innermost brace of a block opened, and where; `none` for a
block passed over. -/
def unclosed? : Block → Option (Nat × String)
  | .space line => some (line, ".namespace block")
  | .skipped _ => none
  | .type t =>
    match t.method with
    | none => some (t.decl.line, ".type block")
    | some m =>
      match m.localsLine with
      | none => some (m.method.line, ".method body")
      | some line => some (line, ".locals block")

end Block

end StackAsm
