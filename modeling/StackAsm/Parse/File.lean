/-
Reading a whole file. Statements are read one after the other, each by
the innermost open block. A statement that is refused gives one
diagnostic; the line it starts on is passed over and reading goes on.
-/
import StackAsm.Parse.Declaration
import StackAsm.Parse.Instruction

namespace StackAsm

namespace Parse

/-- One statement, or the brace that closes the innermost block. -/
def statement (set : InstructionSet) : Parse Unit := do
  let state ← get
  let here := state.cursor.position
  if state.cursor.peek? = some '\x7d' then
    if state.blocks.isEmpty then refuse .strayBrace here.line (some here.column)
    else
      scan (Scan.expect '\x7d')
      modify ParseState.closeBlock
  else
    match state.blocks with
    | .type t :: outer =>
      match t.method with
      | none => typeStatement t outer
      | some m =>
        if m.localsLine.isSome then localsEntry t outer m else methodStatement set t outer m
    | .skipped _ :: _ => return ()
    | _ => namespaceStatement

end Parse

namespace ParseState

/-- Whether the innermost block is passed over. -/
def isSkipping (state : ParseState) : Bool :=
  match state.blocks with
  | block :: _ => block.isSkipped
  | [] => false

/-- Read a statement, or pass a line after a refusal. -/
def advance (set : InstructionSet) (state : ParseState) : ParseState :=
  if state.isSkipping then state.skipLine
  else
    match (Parse.statement set).run state with
    | .ok _ next => next
    | .error fault next =>
      ({ next.report fault.diagnostic with cursor := state.cursor }).skipLine

/-- Read so many rounds, or up to the end of the text if that comes
first. Every round passes at least one character. -/
def run (set : InstructionSet) : Nat → ParseState → ParseState
  | 0, state => state
  | fuel + 1, state =>
    let cursor := state.cursor.skipTrivia
    let state := { state with cursor }
    if cursor.atEnd then state
    else run set fuel (advance set { state with log := state.log.atLine cursor.line })

/-- Read up to the end of the text. -/
def toEnd (set : InstructionSet) (state : ParseState) : ParseState :=
  state.run set (state.cursor.rest.length + 1)

/-- Report the innermost brace if it was left open, and close it. -/
def closeUnclosed (state : ParseState) : ParseState :=
  match state.blocks with
  | [] => state
  | block :: _ =>
    match block.unclosed? with
    | none => state.closeBlock
    | some (line, what) =>
      (state.report (.error .grammar line "Unclosed block" (some what))).closeBlock

/-- Close every open block. -/
def closeAll (state : ParseState) : ParseState :=
  Nat.repeat closeUnclosed state.depth state

end ParseState

/-- The state at the start of a source text. -/
def ParseState.ofSource (program : Program) (source : String) (log : Log) : ParseState :=
  { cursor := .ofText source, program, log }

/-- What reading a file gives. -/
structure Parsed where
  program : Program
  log : Log
  output : ParseOutput

/-- Read a source text into a program. The log's current file names the
text in diagnostics and references. -/
def Program.parse (program : Program) (set : InstructionSet) (source : String) (log : Log) :
    Parsed :=
  let final := ((ParseState.ofSource program source log).toEnd set).closeAll
  let aliases := final.program.aliases ++ final.aliases.reverse
  ⟨{ final.program with aliases }, final.log, final.output.reverse⟩

end StackAsm
