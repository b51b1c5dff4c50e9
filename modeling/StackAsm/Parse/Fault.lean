/-
Why a statement is refused. Each fault is found on a line, often at a
column, and becomes one diagnostic.
-/
import StackAsm.Diagnostic.Basic
import StackAsm.Name.ScopeStack
import StackAsm.Source.Scan

namespace StackAsm

/-- Why a label cannot be placed. -/
inductive LabelFault where
  | tooMany
  | duplicate (name : String)
deriving DecidableEq, Repr

def LabelFault.message : LabelFault → String
  | .tooMany => "too many labels in method"
  | .duplicate name => "duplicate label '" ++ name ++ "'"

/-- Something that is declared under a name. -/
inductive Declared where
  | type
  | field
  | method
  | parameter
  | localVariable
deriving DecidableEq, Repr

def Declared.describe : Declared → String
  | .type => "type"
  | .field => "field"
  | .method => "method"
  | .parameter => "parameter"
  | .localVariable => "local"

inductive ParseCause where
  /-- The text cannot be read. -/
  | scan (fault : ScanFault)
  | strayBrace
  | expectedDeclaration
  | expectedMember
  /-- A directive that is not among those `allowed` here. -/
  | directive (word allowed : String)
  | modifier (owner : Declared) (word : String)
  | path (fault : PathFault) (name : String)
  | duplicate (what : Declared) (name : String)
  /-- An abstract or external method has a body. -/
  | body (name : String)
  | noBody (name : String)
  | secondLocals
  | lateLocals
  | tooManyLocals (name : String)
  | label (fault : LabelFault)
  | mnemonic (word : String)
  /-- No form takes that many arguments; `forms` lists the signatures. -/
  | arity (mnemonic : String) (count : Nat) (forms : List String)
  /-- Every form refuses the arguments, and why. -/
  | arguments (mnemonic : String) (refusals : List String)
deriving DecidableEq, Repr

structure ParseFault where
  cause : ParseCause
  line : Nat
  column : Option Nat
deriving DecidableEq, Repr

def ParseFault.ofScan (error : ScanError) : ParseFault :=
  ⟨.scan error.fault, error.position.line, some error.position.column⟩

namespace ParseCause

/-- The cause as a diagnostic on a line. -/
def diagnostic (cause : ParseCause) (line : Nat) : Diagnostic :=
  match cause with
  | .scan fault =>
    .error (if fault.isGrammatical then .grammar else .lexical) line fault.message none
  | .strayBrace => .error .grammar line "Unexpected '\x7d'" none
  | .expectedDeclaration => .error .grammar line "Expected a declaration" none
  | .expectedMember => .error .grammar line "Expected a member declaration" none
  | .directive word allowed =>
    { Diagnostic.error .grammar line "Unexpected directive" (some ("." ++ word)) with
      help := ["allowed here: " ++ allowed] }
  | .modifier owner word =>
    .error .grammar line ("Unknown " ++ owner.describe ++ " modifier") (some word)
  | .path fault name => .error .grammar line fault.message (some name)
  | .duplicate what name => .error .semantic line ("Duplicate " ++ what.describe) (some name)
  | .body name =>
    .error .semantic line "Abstract or extern method cannot have a body" (some name)
  | .noBody name => .error .grammar line "Expected method body" (some name)
  | .secondLocals => .error .semantic line "Duplicate .locals block" none
  | .lateLocals => .error .semantic line ".locals must precede the first instruction" none
  | .tooManyLocals name => .error .semantic line "Too many locals" (some name)
  | .label fault => .error .semantic line "Invalid label" (some fault.message)
  | .mnemonic word =>
    { Diagnostic.error .opcode line "Unknown mnemonic" (some word) with code := "cpa303" }
  | .arity word count forms =>
    { Diagnostic.error .opcode line
        ("No form of '" ++ word ++ "' takes " ++ toString count ++ " argument(s)") none with
      code := "cpa304"
      notes := forms.map ("form: " ++ ·) }
  | .arguments word refusals =>
    let message := "Invalid arguments for '" ++ word ++ "'"
    match refusals with
    | [refusal] => .error .opcode line message (some refusal)
    | _ => { Diagnostic.error .opcode line message none with notes := refusals }

end ParseCause

def ParseFault.diagnostic (fault : ParseFault) : Diagnostic :=
  { fault.cause.diagnostic fault.line with column := fault.column }

end StackAsm
