/-
Method bodies: the block of locals, labels and instructions. An
instruction takes the first of its forms that accepts the arguments.
-/
import StackAsm.Machine.InstructionSet
import StackAsm.Parse.State

namespace StackAsm

namespace Parse

/-- Put back the open method. -/
def putMethod (t : OpenType) (outer : List Block) (m : OpenMethod) : Parse Unit :=
  modify fun state => { state with blocks := .type { t with method := some m } :: outer }

-- ==== locals

/-- The block of locals of the open method. A block that was announced
counts as seen even if its brace is missing. -/
def localsBlock (t : OpenType) (outer : List Block) (m : OpenMethod) : Parse Unit := do
  let here := (← cursor).position
  scan (Scan.expect '.')
  let word ← scan Scan.word
  if word ≠ "locals" then refuse (.directive word ".locals") here.line (some here.column)
  else if m.localsSeen then refuse .secondLocals here.line none
  else if m.instructions.isEmpty then
    putMethod t outer { m with localsSeen := true }
    scan (Scan.expect '\x7b')
    putMethod t outer { m with localsSeen := true, localsLine := some here.line }
  else refuse .lateLocals here.line none

/-- How many locals a method can declare. -/
def localLimit : Nat := 65535

/-- One entry of the block of locals, or the comma behind one. -/
def localsEntry (t : OpenType) (outer : List Block) (m : OpenMethod) : Parse Unit := do
  if ← scan (Scan.eat ',') then return ()
  else
    let line := (← cursor).line
    let name ← scan Scan.word
    scan (Scan.expect ':')
    let type ← typeSpec (some t.full)
    if m.locals.any (·.name == name) then refuse (.duplicate .localVariable name) line none
    else if m.locals.length ≥ localLimit then refuse (.tooManyLocals name) line none
    else putMethod t outer (m.setLocals (m.locals ++ [⟨name, type⟩]))

-- ==== labels

def labelDeclaration (t : OpenType) (outer : List Block) (m : OpenMethod) : Parse Unit := do
  let here := (← cursor).position
  let name ← scan Scan.word
  scan (Scan.expect ':')
  match m.placeLabel name here.line with
  | .ok placed => putMethod t outer placed
  | .error fault => refuse (.label fault) here.line (some here.column)

-- ==== arguments

/-- One argument as written. -/
def argument : Scan Argument := do
  Scan.skipTrivia
  let cur ← get
  if cur.atLiteral then return ⟨.literal (← Scan.literal), cur.column⟩
  else
    let (name, dims) ← Scan.typeName
    return ⟨.name name dims, cur.column⟩

/-- Arguments with commas between them, behind those in `args`, which are
last first. Each of them has a character, so the text bounds their
number. -/
def argumentList : List Char → List Argument → Scan (List Argument)
  | [], args => return args.reverse
  | _ :: text, args => do
    let args := (← argument) :: args
    Scan.skipInline
    if (← get).peek? = some ',' then
      Scan.expect ','
      argumentList text args
    else return args.reverse

/-- Whether a comma follows the word at the cursor. -/
def isListed (cur : Cursor) (word : List Char) : Bool :=
  (cur.drop word.length).skipInline.peek? = some ','

/-- Whether an argument of `mnemonic` stands at the cursor. A word that
is a mnemonic itself starts the next instruction if `mnemonic` can do
without arguments, unless a comma follows. -/
def startsArgument (set : InstructionSet) (mnemonic : String) (cur : Cursor) : Bool :=
  match cur.peek? with
  | none => false
  | some c =>
    if c = '\x7d' ∨ c = '.' ∨ c = ',' then false
    else if cur.atLiteral then true
    else
      match cur.word? with
      | none => true
      | some word =>
        if cur.atLabel then false
        else if set.isMnemonic (String.ofList word) then
          (set.candidates mnemonic 0).isEmpty || isListed cur word
        else true

/-- The arguments of a mnemonic. -/
def arguments (set : InstructionSet) (mnemonic : String) : Scan (List Argument) := do
  if ← Scan.atLineEnd then return []
  else
    let cur ← get
    if startsArgument set mnemonic cur then argumentList cur.rest []
    else return []

end Parse

-- ==== choosing a form

/-- A form that accepts the arguments of an instruction. -/
structure Acceptance where
  form : Form
  operands : List Operand
  /-- Locals the instruction declares. -/
  implicit : List String
deriving DecidableEq, Repr

/-- What came of trying forms in order. -/
structure Choice where
  /-- The first form that accepts. -/
  chosen : Option Acceptance := none
  /-- Signatures of further forms that accept. -/
  also : List String := []
  /-- Why the forms before the chosen one refuse. -/
  refusals : List String := []
deriving DecidableEq, Repr

namespace Choice

/-- Try one more form. -/
def attempt (ctx : ArgumentContext) (args : List Argument) (choice : Choice) (form : Form) :
    Choice :=
  match (form.read ctx args).run [], choice.chosen with
  | .ok operands implicit, none => { choice with chosen := some ⟨form, operands, implicit⟩ }
  | .ok _ _, some _ => { choice with also := choice.also ++ [form.signature] }
  | .error refusal _, none =>
    { choice with refusals := choice.refusals ++ [form.signature ++ ": " ++ refusal.message] }
  | .error _ _, some _ => choice

def ofForms (ctx : ArgumentContext) (args : List Argument) (forms : List Form) : Choice :=
  forms.foldl (attempt ctx args) {}

/-- The warning about an instruction that more than one form accepts. -/
def warning? (choice : Choice) (line column : Nat) : Option Diagnostic :=
  match choice.chosen, choice.also with
  | some accepted, _ :: _ =>
    some
      { Diagnostic.warning .opcode line "Ambiguous instruction"
          (some accepted.form.signature) with
        column := some column
        code := "cpa305"
        notes := choice.also.map ("also accepted by: " ++ ·)
        help := ["the first form in table order is used"] }
  | _, _ => none

end Choice

namespace Parse

/-- What the arguments of an instruction are read against. -/
def argumentContext (scope : Scope) (file : String) (line : Nat) (m : OpenMethod) :
    ArgumentContext :=
  { scope
    file
    line
    params := m.method.params
    locals := m.locals
    localsDeclared := m.localsDeclared
    labels := m.labels }

/-- A mnemonic and its arguments. -/
def instruction (set : InstructionSet) (t : OpenType) (outer : List Block) (m : OpenMethod) :
    Parse Unit := do
  let here := (← cursor).position
  let mnemonic ← scan Scan.word
  if !set.isMnemonic mnemonic then refuse (.mnemonic mnemonic) here.line (some here.column)
  let args ← scan (arguments set mnemonic)
  match set.candidates mnemonic args.length with
  | [] =>
    let forms := (set.overloads mnemonic).map Form.signature
    refuse (.arity mnemonic args.length forms) here.line (some here.column)
  | forms =>
    let scope ← visible (some t.full)
    let ctx := argumentContext scope (← get).log.file here.line m
    let choice := Choice.ofForms ctx args forms
    match choice.chosen with
    | none => refuse (.arguments mnemonic choice.refusals) here.line (some here.column)
    | some accepted =>
      match choice.warning? here.line here.column with
      | some warning => modify (·.report warning)
      | none => pure ()
      putMethod t outer
        (m.addInstruction ⟨accepted.form.opcode, accepted.operands, here.line⟩ accepted.implicit)

/-- One statement of the open method. -/
def methodStatement (set : InstructionSet) (t : OpenType) (outer : List Block)
    (m : OpenMethod) : Parse Unit := do
  let cur ← cursor
  if cur.peek? = some '.' then localsBlock t outer m
  else if cur.atLabel then labelDeclaration t outer m
  else instruction set t outer m

end Parse

end StackAsm
