/-
Listings: a program written out as text, with the byte offset of every
instruction. The text of a program without offsets would be source
again.
-/
import StackAsm.Container.Code

namespace StackAsm

namespace Listing

/-- The two lines in front of a listing. -/
def header (title : String) : List String := ["; " ++ title, "; OFFS  INSTRUCTION"]

/-- Lines put together, each with its end. -/
def ofLines (lines : List String) : String := String.join (lines.map (· ++ "\n"))

-- ==== methods

/-- What the code of a method refers to. -/
structure Names where
  params : Array Variable
  locals : Array Variable
  labels : Table UInt16 Label

def Names.ofMethod (method : Method) : Names :=
  ⟨method.params.toArray, method.body.locals.toArray, method.body.labelTable⟩

/-- The name of the variable in a slot, or the slot's number. -/
def slotText (vars : Array Variable) (slot : UInt16) : String :=
  match vars[slot.toNat]? with
  | some var => var.name
  | none => toString slot.toNat

def operandText (names : Names) : Operand → String
  | .const value => value.display
  | .type spec => spec.display
  | .nullType => "null"
  | .field reference | .method reference => reference.name
  | .register r => r.name
  | .flag f => f.name
  | .label index _ =>
    match names.labels.get? index with
    | some label => label.name
    | none => "#" ++ toString index.toNat
  | .var .argument slot => slotText names.params slot
  | .var .locals slot => slotText names.locals slot
  | .function name => Text.quoted name

def instructionText (set : InstructionSet) (names : Names) (instruction : Instruction) :
    String :=
  let mnemonic := ((set.get? instruction.opcode).map Form.mnemonic).getD "???"
  if instruction.operands.isEmpty then mnemonic
  else mnemonic ++ " " ++ ", ".intercalate (instruction.operands.map (operandText names))

def variableText (var : Variable) : String := var.name ++ ":" ++ var.type.display

/-- The line that a method starts with, its opening brace left out. -/
def methodHead (indent : String) (method : Method) : String :=
  let params := ", ".intercalate (method.params.map variableText)
  let modifiers := Modifiers.ofMethods.display method.attrs
  let result := method.result.display
  indent ++ "  .method " ++ method.name ++ "(" ++ params ++ ")"
    ++ (if modifiers.isEmpty then "" else " " ++ modifiers)
    ++ (if result == "void" then "" else " -> " ++ result)

/-- A line for each label at a place among the instructions. -/
def labelLines (indent : String) (labels : LabelsByPlace) (place : Nat) : List String :=
  (labels.placedAt place).map fun label => indent ++ "  " ++ label.name ++ ":"

/-- Instructions with their offsets, each behind the labels placed there. -/
def codeLines (set : InstructionSet) (indent : String) (method : Method)
    (offsets : List UInt32) : List String :=
  let names := Names.ofMethod method
  let labels := method.body.labelsByPlace
  let code := (offsets.zip method.body.instructions).zipIdx
  (code.flatMap fun ((offset, instruction), place) =>
    labelLines indent labels place
      ++ [indent ++ "    " ++ Text.hexOffset offset.toNat ++ "  "
            ++ instructionText set names instruction])
    ++ labelLines indent labels code.length

def methodLines (set : InstructionSet) (indent : String) (method : Method) :
    Except FormatFault (List String) :=
  let head := methodHead indent method
  if method.attrs.isBodiless then .ok [head]
  else
    match (set.encodeCode method.body.instructions).run {} with
    | .error fault _ => .error fault
    | .ok code _ =>
      let locals :=
        if method.body.locals.isEmpty then []
        else
          [indent ++ "    .locals \x7b " ++ ", ".intercalate (method.body.locals.map variableText)
            ++ " \x7d"]
      .ok ([head ++ " \x7b"] ++ locals
        ++ codeLines set indent method code.offsets
        ++ [indent ++ "  \x7d"])

-- ==== types

def indentation (depth : Nat) : String := String.join (List.replicate depth "  ")

def typeHead (indent name : String) (attrs : Attributes) : String :=
  let modifiers := Modifiers.ofTypes.display attrs
  indent ++ ".type " ++ name ++ (if modifiers.isEmpty then "" else " : " ++ modifiers) ++ " \x7b"

def fieldLine (indent : String) (field : Field) : String :=
  let modifiers := Modifiers.ofFields.display field.attrs
  indent ++ "  .field " ++ modifiers ++ (if modifiers.isEmpty then "" else " ") ++ field.name
    ++ " : " ++ field.type.display

mutual

def typeLines (set : InstructionSet) (depth : Nat) :
    TypeDecl → Except FormatFault (List String)
  | ⟨name, attrs, fields, methods, nested, _⟩ => do
    let indent := indentation depth
    let methods ← methods.mapM (methodLines set indent)
    let nested ← allTypeLines set (depth + 1) nested
    return [typeHead indent name attrs] ++ fields.map (fieldLine indent) ++ methods.flatten
      ++ nested ++ [indent ++ "\x7d"]

def allTypeLines (set : InstructionSet) (depth : Nat) :
    List TypeDecl → Except FormatFault (List String)
  | [] => return []
  | type :: rest => return (← typeLines set depth type) ++ (← allTypeLines set depth rest)

end

/-- The lines of a namespace; the global one has no braces. -/
def namespaceLines (set : InstructionSet) (space : Namespace) :
    Except FormatFault (List String) := do
  if space.types.isEmpty then return []
  else if space.name.isEmpty then allTypeLines set 0 space.types
  else
    return [".namespace " ++ space.name ++ " \x7b"] ++ (← allTypeLines set 1 space.types)
      ++ ["\x7d"]

end Listing

/-- The listing of a program. -/
def Program.listing (program : Program) (set : InstructionSet) : Except FormatFault String := do
  let namespaces ← program.namespaces.mapM (Listing.namespaceLines set)
  return Listing.ofLines
    (program.externals.map (".extern " ++ ·)
      ++ program.aliases.map (fun entry => ".alias " ++ entry.name ++ " = " ++ entry.target.display)
      ++ namespaces.flatten)

end StackAsm
