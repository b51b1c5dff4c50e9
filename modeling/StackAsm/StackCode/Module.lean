/-
Modules of stack code: a whole program lowered, method by method. A
method's code is the optional stack guard, then for each instruction the
marks of the labels placed there and the block it lowers to, and at the
end the marks of the labels behind the last instruction.
-/
import StackAsm.Machine.InstructionSet
import StackAsm.StackCode.Lower

namespace StackAsm

structure StackModule where
  symbols : Array Symbol := #[]
  strings : StringHeap := {}
  methods : List StackMethod := []
deriving DecidableEq, Repr

/-- The longest code that is still marked for inlining. -/
def inlineLimit : Nat := 16

/-- What a program is lowered with. -/
structure Lowering where
  set : InstructionSet
  facts : ProgramFacts
  options : LoweringOptions

namespace Lowering

variable (lowering : Lowering)

/-- Marks of the labels at a place among the instructions. -/
def marks (labels : LabelsByPlace) (place : Nat) : List StackOp :=
  (labels.placedAt place).map fun label => .mark label.index

/-- The block of one instruction of the method of that full name. -/
def block (method : String) (index : Nat) (instruction : Instruction) :
    Lower (List StackOp) :=
  match lowering.set.get? instruction.opcode with
  | none => throw (.unknownOpcode method instruction.opcode)
  | some form =>
    let ctx : LoweringContext :=
      ⟨lowering.facts, lowering.options, method, index, form.mnemonic⟩
    ctx.lower form.lowering instruction.operands

/-- Code from an instruction on, with the marks of its labels. -/
def codeFrom (method : String) (labels : LabelsByPlace) (index : Nat) :
    List Instruction → Lower (List StackOp)
  | [] => return marks labels index
  | instruction :: rest => do
    let ops ← lowering.block method index instruction
    return marks labels index ++ ops ++ (← codeFrom method labels (index + 1) rest)

/-- The stack guard, unless it is left out. -/
def guardOps : List StackOp :=
  if lowering.options.unguarded then [] else [.callRoutine .ensureStack]

def typedName (var : Variable) : TypedName := ⟨var.name, lowering.facts.stackType var.type⟩

/-- Lower a method of the type of that full name, deferred compares left
in place. -/
def draft (owner : String) (method : Method) : Lower StackMethod := do
  let name := Text.join owner method.name
  match method.body.labels.find? (·.offset.isNone) with
  | some label => throw (.unplacedLabel name label.name)
  | none =>
    let labels := method.body.labelsByPlace
    let code ← lowering.codeFrom name labels 0 method.body.instructions
    return {
      name
      isStatic := method.attrs.isStatic
      result := lowering.facts.stackType method.result
      params := (method.params.map lowering.typedName).toArray
      locals := (method.body.locals.map lowering.typedName).toArray
      ops := lowering.guardOps ++ code }

/-- Lower a method of the type of that full name. -/
def method (owner : String) (method : Method) : Lower StackMethod := do
  match (← lowering.draft owner method).patchCompares with
  | .error fault => throw fault
  | .ok final =>
    let inlined := lowering.options.inlining && final.ops.length ≤ inlineLimit
    return { final with inlined }

/-- The methods of a program that have a body, with the full names of
their types. -/
def withBodies (program : Program) : List (String × Method) :=
  program.methods.filter fun entry => !entry.2.attrs.isBodiless

end Lowering

/-- Lower a program whose references are all resolved; the first method
that fails decides. -/
def Program.lower (program : Program) (set : InstructionSet) (options : LoweringOptions) :
    Except LoweringFault StackModule :=
  let lowering : Lowering := ⟨set, ProgramFacts.ofProgram program, options⟩
  let run := (Lowering.withBodies program).mapM fun entry => lowering.method entry.1 entry.2
  match run.run {} with
  | .ok methods tables => .ok ⟨tables.symbols.toArray, tables.strings, methods⟩
  | .error fault _ => .error fault

end StackAsm
