/-
References of a program. `references` lists them in a fixed order: the
alias targets, then type by type, outer before nested, the field types
and for each method its result, parameters, locals and operands.
`mapReferences` changes each of them and nothing else.
-/
import StackAsm.Program.Lookup

namespace StackAsm

-- ==== listing

def Instruction.references (instruction : Instruction) : List Reference :=
  instruction.operands.filterMap Operand.reference?

def Method.references (method : Method) : List Reference :=
  method.result.reference
    :: (method.params ++ method.body.locals).map (·.type.reference)
    ++ method.body.instructions.flatMap Instruction.references

/-- References of a type's own members, nested types left out. -/
def TypeDecl.ownReferences (type : TypeDecl) : List Reference :=
  type.fields.map (·.type.reference) ++ type.methods.flatMap Method.references

/-- Every reference of a program, in order. -/
def Program.references (program : Program) : List Reference :=
  program.aliases.map (·.target.reference)
    ++ program.types.flatMap fun entry => entry.2.ownReferences

-- ==== changing

section Change

variable (f : Reference → Reference)

def TypeSpec.mapReference (spec : TypeSpec) : TypeSpec :=
  { spec with reference := f spec.reference }

def Variable.mapReference (var : Variable) : Variable :=
  { var with type := var.type.mapReference f }

def Operand.mapReference : Operand → Operand
  | .type spec => .type (spec.mapReference f)
  | .field reference => .field (f reference)
  | .method reference => .method (f reference)
  | other => other

def Instruction.mapReferences (instruction : Instruction) : Instruction :=
  { instruction with operands := instruction.operands.map (Operand.mapReference f) }

def Method.mapReferences (method : Method) : Method :=
  { method with
    result := method.result.mapReference f
    params := method.params.map (Variable.mapReference f)
    body :=
      { method.body with
        locals := method.body.locals.map (Variable.mapReference f)
        instructions := method.body.instructions.map (Instruction.mapReferences f) } }

def Field.mapReference (field : Field) : Field :=
  { field with type := field.type.mapReference f }

mutual

def TypeDecl.mapReferences : TypeDecl → TypeDecl
  | ⟨name, attrs, fields, methods, nested, line⟩ =>
    ⟨name, attrs, fields.map (Field.mapReference f), methods.map (Method.mapReferences f),
      mapAllReferences nested, line⟩

def TypeDecl.mapAllReferences : List TypeDecl → List TypeDecl
  | [] => []
  | type :: rest => TypeDecl.mapReferences type :: mapAllReferences rest

end

/-- Replace every reference `r` of a program by `f r`. -/
def Program.mapReferences (program : Program) : Program :=
  { program with
    aliases := program.aliases.map fun entry =>
      { entry with target := entry.target.mapReference f }
    namespaces := program.namespaces.map fun space =>
      { space with types := TypeDecl.mapAllReferences f space.types } }

end Change

end StackAsm
