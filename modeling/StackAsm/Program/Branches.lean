/-
Branch fixes. While a method is read, a branch knows its label but not
yet the instruction the label marks. Each method hands over a set of
fixes, applied once the whole program is resolved: first every label
must have been placed, then every branch gets its target.
-/
import StackAsm.Diagnostic.Log
import StackAsm.Patch.Queue
import StackAsm.Program.Lookup
import StackAsm.Zipper

namespace StackAsm

/-- Why a branch target cannot be filled in. -/
inductive BranchFault where
  | unplaced (index : UInt16)
  | noOperand (key : PatchKey)
  | described (text : String)
deriving DecidableEq, Repr

def BranchFault.message : BranchFault → String
  | .unplaced index => "label " ++ toString index.toNat ++ " has no offset"
  | .noOperand key =>
    "no label operand at " ++ toString key.position.toNat ++ "/" ++ toString key.slot.toNat
  | .described text => text

-- ==== targets

/-- The instruction with the target of the label operand at a slot set;
`none` if no label operand stands there. -/
def Instruction.setTarget? (instruction : Instruction) (slot : Nat) (target : UInt32) :
    Option Instruction :=
  match instruction.operands[slot]? with
  | some (.label index _) =>
    some { instruction with
      operands := instruction.operands.set slot (.label index (some target)) }
  | _ => none

/-- A method body while its branches are filled in. -/
structure OpenBody where
  labels : List Label
  code : Zipper Instruction

namespace OpenBody

def ofBody (body : MethodBody) : OpenBody := ⟨body.labels, .ofList body.instructions⟩

/-- The instruction that the first label with that index marks. -/
def offset? (body : OpenBody) (index : UInt16) : Option UInt32 :=
  (body.labels.find? (·.index == index)).bind Label.offset

/-- Set the target of the label operand at a place; `none` if no label
operand stands there. -/
def setTarget? (body : OpenBody) (key : PatchKey) (target : UInt32) : Option OpenBody :=
  ((body.code.moveTo key.position.toNat).change? (·.setTarget? key.slot.toNat target)).map
    fun code => { body with code }

theorem toList_setTarget? (body : OpenBody) (key : PatchKey) (target : UInt32) :
    (body.setTarget? key target).map (·.code.toList) =
      (body.code.toList[key.position.toNat]?.bind (·.setTarget? key.slot.toNat target)).map
        fun aimed => body.code.toList.set key.position.toNat aimed := by
  rw [← Zipper.toList_change?_moveTo, setTarget?, Option.map_map]
  rfl

end OpenBody

/-- The fix for the branch at `key` to the label with that index. -/
def branchFix (key : PatchKey) (index : UInt16) : Patch OpenBody BranchFault where
  key := key
  run := fun body =>
    match body.offset? index with
    | none => .error (.unplaced index)
    | some target =>
      match body.setTarget? key target with
      | some fixed => .ok fixed
      | none => .error (.noOperand key)

-- ==== per method

/-- The branch fixes of one method. -/
structure BranchFixes where
  /-- Full name of the method's type. -/
  typePath : String
  /-- The method's place among the methods of its type. -/
  index : Nat
  method : String
  file : String
  line : Nat
  /-- For each label the line it was last seen on. -/
  labelLines : List Nat
  queue : PatchQueue OpenBody BranchFault

namespace BranchFixes

/-- The file to name in diagnostics. -/
def file? (fixes : BranchFixes) : Option String :=
  if fixes.file.isEmpty then none else some fixes.file

/-- A diagnostic for each label that was never placed. -/
def unplaced (fixes : BranchFixes) (body : MethodBody) : List Diagnostic :=
  ((body.labels.zip fixes.labelLines).filter fun entry => entry.1.offset.isNone).map fun entry =>
    { Diagnostic.error .semantic entry.2 "Label is never placed" (some entry.1.name) with
      file := fixes.file?
      notes := ["in method " ++ fixes.typePath ++ "." ++ fixes.method] }

/-- Fill in the targets of a body whose labels are all placed. -/
def apply (fixes : BranchFixes) (body : MethodBody) : MethodBody × List Diagnostic :=
  match fixes.unplaced body with
  | [] =>
    let (verdict, fixed, _) := fixes.queue.apply (.ofBody body)
    let failures := match verdict with
      | .ok _ => []
      | .error failures => failures
    ({ body with instructions := fixed.code.toList }, failures.map fun failure =>
      { Diagnostic.error .semantic fixes.line "Branch target could not be fixed"
          (some (failure.1.display ++ ": " ++ failure.2.message)) with
        file := fixes.file? })
  | complaints => (body, complaints)

/-- The method the fixes are for. -/
def target? (fixes : BranchFixes) (program : Program) : Option Method :=
  (program.find? fixes.typePath).bind fun type =>
    type.methods[fixes.index]?.filter fun method => method.name == fixes.method

/-- Put a changed method back in its place. -/
def putBack (fixes : BranchFixes) (program : Program) (method : Method) : Program :=
  (program.changeType? fixes.typePath fun type =>
    { type with methods := type.methods.set fixes.index method }).getD program

end BranchFixes

/-- Apply one method's fixes; the answer says whether nothing was wrong. -/
def Program.fixMethod (program : Program) (log : Log) (fixes : BranchFixes) :
    Program × Log × Bool :=
  match fixes.target? program with
  | none =>
    let owner := Text.join fixes.typePath fixes.method
    let complaint :=
      { Diagnostic.error .semantic fixes.line "Branch targets could not be fixed"
          (some owner) with
        file := fixes.file? }
    (program, log.report complaint, false)
  | some method =>
    let (body, complaints) := fixes.apply method.body
    (fixes.putBack program { method with body }, log.reportAll complaints, complaints.isEmpty)

/-- Apply the fixes of every method; counts the methods with nothing
wrong. -/
def Program.fixBranches (program : Program) (log : Log) :
    List BranchFixes → Program × Log × Nat
  | [] => (program, log, 0)
  | fixes :: rest =>
    let (program, log, clean) := program.fixMethod log fixes
    let (program, log, count) := Program.fixBranches program log rest
    (program, log, if clean then count + 1 else count)

end StackAsm
