/-
Declarations: imports, aliases, namespaces, types, fields and the heads
of methods.
-/
import StackAsm.Parse.State

namespace StackAsm.Parse

/-- A directive word behind a dot, with the column of the dot. -/
def directive? : Parse (Option (String × Nat)) := do
  let cur ← cursor
  if cur.peek? = some '.' then
    scan (Scan.expect '.')
    return some (← scan Scan.word, cur.column)
  else return none

-- ==== types

/-- Modifiers of a type, up to its opening brace. Each of them has a
character, so the text bounds their number. -/
def typeModifiers : List Char → Attributes → Parse Attributes
  | [], attrs => return attrs
  | _ :: text, attrs => do
    scan Scan.skipTrivia
    let cur ← cursor
    if cur.peek? = some '\x7b' ∨ cur.atEnd then return attrs
    else typeModifiers text (← modifier .type Modifiers.ofTypes attrs)

/-- The full name of a type declared here. -/
def fullName (state : ParseState) (name : String) : String :=
  match state.typePath with
  | some outer => Text.join outer name
  | none => state.scope.qualify name

/-- Open a type whose brace was passed. -/
def openType (name : String) (attrs : Attributes) (line : Nat) : Parse Unit := do
  let state ← get
  let full := fullName state name
  if state.declared.contains full || (state.program.find? full).isSome then
    refuse (.duplicate .type full) line none
  else
    let opened : OpenType := ⟨{ name, attrs, line }, full, state.scope.path, none⟩
    set { state with
      declared := full :: state.declared
      blocks := .type opened :: state.blocks }

/-- A type declaration behind its directive. -/
def typeDeclaration (line : Nat) : Parse Unit := do
  let name ← scan Scan.word
  let attrs ←
    if ← scan (Scan.eat ':') then typeModifiers (← cursor).rest {} else pure {}
  scan (Scan.expect '\x7b')
  openType name attrs line

-- ==== namespaces

/-- Enter a namespace whose brace was passed. -/
def enterNamespace (rooted : Bool) (name : String) (line : Nat) : Parse Unit := do
  let state ← get
  match if rooted then state.scope.enterRooted name else state.scope.enter name with
  | .ok scope => set { state with scope, blocks := .space line :: state.blocks }
  | .error fault => refuse (.path fault name) line none

/-- One statement outside every type. -/
def namespaceStatement : Parse Unit := do
  let here := (← cursor).position
  match ← directive? with
  | none => refuse .expectedDeclaration here.line (some here.column)
  | some (word, column) =>
    match word with
    | "import" =>
      let path ← scan Scan.string
      modify fun state =>
        let imports := ⟨path, here.line⟩ :: state.output.imports
        { state with output := { state.output with imports } }
    | "using" =>
      let path ← scan Scan.dotted
      modify fun state => { state with scope := state.scope.addImport path }
    | "alias" =>
      let name ← scan Scan.word
      scan (Scan.expect '=')
      let target ← typeSpec none
      modify fun state =>
        { state with
          scope := state.scope.addAlias name target.reference.name
          aliases := ⟨state.scope.qualify name, target⟩ :: state.aliases }
    | "extern" =>
      let path ← scan Scan.dotted
      modify fun state => { state with program := state.program.addExternal path }
    | "namespace" =>
      let rooted ← scan (Scan.eatText [':', ':'])
      let name ← scan Scan.dotted
      scan (Scan.expect '\x7b')
      enterNamespace rooted name here.line
    | "type" => typeDeclaration here.line
    | _ =>
      refuse (.directive word ".import .using .alias .extern .namespace .type") here.line
        (some column)

-- ==== fields

/-- Modifiers of a field and the name behind them, which a colon
follows. The text bounds the number of modifiers. -/
def fieldName : List Char → Attributes → Parse (String × Attributes)
  | [], attrs => return (← scan Scan.word, attrs)
  | _ :: text, attrs => do
    scan Scan.skipTrivia
    let start ← cursor
    let word ← scan Scan.word
    scan Scan.skipInline
    if (← cursor).peek? = some ':' then return (word, attrs)
    else
      modify fun state => { state with cursor := start }
      fieldName text (← modifier .field Modifiers.ofFields attrs)

/-- A field of the open type, behind its directive. -/
def fieldDeclaration (t : OpenType) (outer : List Block) (line : Nat) : Parse Unit := do
  let (name, attrs) ← fieldName (← cursor).rest {}
  scan (Scan.expect ':')
  let type ← typeSpec (some t.full)
  if (t.decl.field? name).isSome then refuse (.duplicate .field name) line none
  else
    let decl := { t.decl with fields := t.decl.fields ++ [⟨name, attrs, type, line⟩] }
    modify fun state => { state with blocks := .type { t with decl } :: outer }

-- ==== methods

/-- Parameters up to the closing parenthesis, behind those in `params`.
Each of them has a character and the end of the text is refused, so a
text that begins before the first of them bounds their number. -/
def parameters (typePath : String) : List Char → List Variable → Parse (List Variable)
  | [], params => return params
  | _ :: text, params => do
    scan Scan.skipTrivia
    let line := (← cursor).line
    let name ← scan Scan.word
    scan (Scan.expect ':')
    let type ← typeSpec (some typePath)
    if params.any (·.name == name) then refuse (.duplicate .parameter name) line none
    else
      let params := params ++ [⟨name, type⟩]
      if ← scan (Scan.eat ',') then parameters typePath text params
      else
        scan (Scan.expect ')')
        return params

/-- Whether the modifiers of a method end at a character. -/
def endsModifiers : Option Char → Bool
  | none => true
  | some c => c == '\n' || c == '\x7b' || c == '-'

/-- Modifiers of a method, on one line. The text bounds their number. -/
def methodModifiers : List Char → Attributes → Parse Attributes
  | [], attrs => return attrs
  | _ :: text, attrs => do
    scan Scan.skipInline
    if endsModifiers (← cursor).peek? then return attrs
    else methodModifiers text (← modifier .method Modifiers.ofMethods attrs)

/-- The head of a method behind its parameters. -/
def methodEnd (typePath name : String) (line : Nat) (params : List Variable) : Parse Method := do
  let attrs ← methodModifiers (← cursor).rest {}
  let result ←
    if ← scan (Scan.eatText ['-', '>']) then typeSpec (some typePath) else pure .void
  return { name, attrs, result, params, line }

/-- The head of a method behind its directive. -/
def methodHead (typePath : String) (line : Nat) : Parse Method := do
  let name ← scan Scan.word
  let text := (← cursor).rest
  scan (Scan.expect '(')
  let params ← if ← scan (Scan.eat ')') then pure [] else parameters typePath text []
  methodEnd typePath name line params

/-- A method of the open type, behind its directive; its body is opened. -/
def methodDeclaration (t : OpenType) (outer : List Block) (line : Nat) : Parse Unit := do
  let method ← methodHead t.full line
  if (t.decl.method? method.name).isSome then refuse (.duplicate .method method.name) line none
  else
    scan Scan.skipTrivia
    let hasBody := (← cursor).peek? = some '\x7b'
    if method.attrs.isBodiless then
      if hasBody then refuse (.body method.name) line none
      else
        let decl := { t.decl with methods := t.decl.methods ++ [method] }
        modify fun state =>
          { state with
            blocks := .type { t with decl } :: outer
            output := { state.output with methods := state.output.methods + 1 } }
    else if hasBody then
      scan (Scan.expect '\x7b')
      let opened := OpenMethod.start method (← cursor).labelsAhead
      modify fun state => { state with blocks := .type { t with method := some opened } :: outer }
    else refuse (.noBody method.name) line none

/-- One statement of the open type. -/
def typeStatement (t : OpenType) (outer : List Block) : Parse Unit := do
  let here := (← cursor).position
  match ← directive? with
  | none => refuse .expectedMember here.line (some here.column)
  | some (word, column) =>
    match word with
    | "field" => fieldDeclaration t outer here.line
    | "method" => methodDeclaration t outer here.line
    | "type" => typeDeclaration here.line
    | _ => refuse (.directive word ".field .method .type") here.line (some column)

end StackAsm.Parse
