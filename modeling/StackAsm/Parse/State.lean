/-
The state of reading one file: what is left of the text, the program so
far, the open blocks, and what the file asks for besides its
declarations. A refused statement leaves the state as it was when the
fault was found; the text is then taken up again from its start.
-/
import StackAsm.Parse.Block
import StackAsm.Source.Blocks

namespace StackAsm

/-- A file asked for with `.import`. -/
structure Import where
  path : String
  line : Nat
deriving DecidableEq, Repr

/-- What a file contributes besides its declarations. -/
structure ParseOutput where
  imports : List Import := []
  /-- Branch fixes for each method. -/
  fixes : List BranchFixes := []
  types : Nat := 0
  methods : Nat := 0
  instructions : Nat := 0

/-- The output with its lists turned around. -/
def ParseOutput.reverse (output : ParseOutput) : ParseOutput :=
  { output with imports := output.imports.reverse, fixes := output.fixes.reverse }

structure ParseState where
  cursor : Cursor
  program : Program
  log : Log
  scope : ScopeStack := {}
  /-- Open blocks, innermost first. -/
  blocks : List Block := []
  /-- Aliases declared in this file, the last one first. -/
  aliases : List TypeAlias := []
  /-- The output so far, its lists the last one first. -/
  output : ParseOutput := {}
  /-- Full names of the types declared in this file. -/
  declared : List String := []

abbrev Parse := EStateM ParseFault ParseState

namespace ParseState

/-- How many braces are open. -/
def depth (state : ParseState) : Nat :=
  state.blocks.foldl (fun depth block => depth + block.depth) 0

/-- Full name of the innermost open type. -/
def typePath (state : ParseState) : Option String :=
  state.blocks.findSome? fun
    | .type t => some t.full
    | _ => none

def report (state : ParseState) (d : Diagnostic) : ParseState :=
  { state with log := state.log.report d }

-- ==== closing

/-- Hand a finished method to its type. -/
def closeMethod (state : ParseState) (t : OpenType) (m : OpenMethod) (outer : List Block) :
    ParseState :=
  let method := m.finish
  let fixes : BranchFixes :=
    { typePath := t.full
      index := t.decl.methods.length
      method := method.name
      file := state.log.file
      line := method.line
      labelLines := m.labelLines
      queue := m.fixes }
  { state with
    blocks :=
      .type { t with decl := { t.decl with methods := t.decl.methods ++ [method] }, method := none }
        :: outer
    output :=
      { state.output with
        methods := state.output.methods + 1
        instructions := state.output.instructions + method.body.instructions.length
        fixes := fixes :: state.output.fixes } }

/-- Hand a finished type to the type around it or to its namespace. -/
def closeType (state : ParseState) (t : OpenType) (outer : List Block) : ParseState :=
  let output := { state.output with types := state.output.types + 1 }
  match outer with
  | .type parent :: rest =>
    let decl := { parent.decl with nested := parent.decl.nested ++ [t.decl] }
    { state with blocks := .type { parent with decl } :: rest, output }
  | _ =>
    { state with blocks := outer, output, program := state.program.addType t.space t.decl }

/-- Close what the innermost brace opened; nothing happens outside every
block. -/
def closeBlock (state : ParseState) : ParseState :=
  match state.blocks with
  | [] => state
  | .space _ :: outer => { state with blocks := outer, scope := state.scope.leave }
  | .skipped _ :: outer => { state with blocks := outer }
  | .type t :: outer =>
    match t.method with
    | none => state.closeType t outer
    | some m =>
      if m.localsLine.isSome then
        let closed := { m with localsLine := none, localsDeclared := true }
        { state with blocks := .type { t with method := some closed } :: outer }
      else state.closeMethod t m outer

/-- Follow a brace on a line that is passed over. -/
def followBrace (line : Nat) (state : ParseState) : Brace → ParseState
  | .opening => { state with blocks := .skipped line :: state.blocks }
  | .closing => state.closeBlock

/-- Pass the rest of the line, but keep the blocks in step with its
braces. -/
def skipLine (state : ParseState) : ParseState :=
  let (braces, cursor) := state.cursor.restOfLine
  { braces.foldl (followBrace state.cursor.line) state with cursor }

end ParseState

namespace Parse

variable {α : Type}

-- ==== scanning

/-- Run a scan step on the text. -/
def scan (step : Scan α) : Parse α := fun state =>
  match step.run state.cursor with
  | .ok value cursor => .ok value { state with cursor }
  | .error error cursor => .error (.ofScan error) { state with cursor }

def cursor : Parse Cursor := return (← get).cursor

/-- Refuse the statement. -/
def refuse (cause : ParseCause) (line : Nat) (column : Option Nat) : Parse α :=
  throw ⟨cause, line, column⟩

-- ==== references

/-- What is visible inside a type. -/
def visible (typePath : Option String) : Parse Scope := do
  let state ← get
  let (scope, stack) := state.scope.snapshot typePath
  set { state with scope := stack }
  return scope

/-- A type, to be looked up later unless it is built in. -/
def typeSpec (typePath : Option String) : Parse TypeSpec := do
  scan Scan.skipTrivia
  let here := (← cursor).position
  let (name, dims) ← scan Scan.typeName
  if isPrimitiveName name then return ⟨.resolved (.primitive name), dims⟩
  else
    let scope ← visible typePath
    let origin : Origin := ⟨(← get).log.file, here.line, some here.column⟩
    return ⟨.pending ⟨name, .type, scope, origin⟩, dims⟩

/-- A modifier word added to attributes. -/
def modifier (owner : Declared) (table : Modifiers) (attrs : Attributes) : Parse Attributes := do
  let here := (← cursor).position
  let word ← scan Scan.word
  match table.bit? word with
  | some bit => return attrs.set bit
  | none => refuse (.modifier owner word) here.line (some here.column)

end Parse

end StackAsm
