/-
Programs without line numbers. Lines are not stored in binary files, so
a program read back from one is compared without them.
-/
import StackAsm.Program.Basic

namespace StackAsm

section Change

variable (onField : Field → Field) (onMethod : Method → Method) (onLine : Nat → Nat)

mutual

/-- Change the fields, methods and lines of a type and of the types
nested in it. -/
def TypeDecl.mapMembers : TypeDecl → TypeDecl
  | ⟨name, attrs, fields, methods, nested, line⟩ =>
    ⟨name, attrs, fields.map onField, methods.map onMethod, mapAllMembers nested, onLine line⟩

def TypeDecl.mapAllMembers : List TypeDecl → List TypeDecl
  | [] => []
  | type :: rest => TypeDecl.mapMembers type :: mapAllMembers rest

end

/-- Change the fields, methods and lines of every type. -/
def Program.mapMembers (program : Program) : Program :=
  { program with
    namespaces := program.namespaces.map fun space =>
      { space with types := TypeDecl.mapAllMembers onField onMethod onLine space.types } }

end Change

namespace MethodBody

/-- The body with every instruction's line set to zero. -/
def forgetLines (body : MethodBody) : MethodBody :=
  { body with
    instructions := body.instructions.map fun instruction => { instruction with line := 0 } }

end MethodBody

/-- The method without the lines of its instructions. -/
def Method.forgetCodeLines (method : Method) : Method :=
  { method with body := method.body.forgetLines }

namespace Program

/-- The program without the lines of its instructions. -/
def forgetCodeLines (program : Program) : Program :=
  program.mapMembers id Method.forgetCodeLines id

/-- The program with every line set to zero. -/
def forgetLines (program : Program) : Program :=
  program.mapMembers (fun field => { field with line := 0 })
    (fun method => { method.forgetCodeLines with line := 0 }) (fun _ => 0)

end Program

end StackAsm
