/-
Diagnostics: what the assembler has to say about a source. Each belongs
to a category with a code of its own; some are given a more specific
code. Notes list related facts and helps suggest what to do.
-/

namespace StackAsm

/-- What a problem is about. -/
inductive Category where
  | lexical
  | grammar
  | semantic
  | resolution
  | opcode
  | format
  | files
  | commandLine
  | lowering
deriving DecidableEq, Repr

/-- The code of a diagnostic that has no code of its own. -/
def Category.code : Category → String
  | .lexical => "cpa101"
  | .grammar => "cpa102"
  | .semantic => "cpa201"
  | .resolution => "cpa301"
  | .opcode => "cpa302"
  | .format => "cpa401"
  | .files => "cpa501"
  | .commandLine => "cpa601"
  | .lowering => "cpa701"

inductive Severity where
  | warning
  | error
deriving DecidableEq, Repr

namespace Severity

def label : Severity → String
  | .warning => "WARNING"
  | .error => "ERROR"

def word : Severity → String
  | .warning => "warning"
  | .error => "error"

end Severity

structure Diagnostic where
  severity : Severity
  category : Category
  code : String
  line : Nat
  column : Option Nat := none
  file : Option String := none
  message : String
  notes : List String := []
  help : List String := []
deriving DecidableEq, Repr

namespace Diagnostic

/-- A message and what it is about. -/
def messageWith (message : String) : Option String → String
  | some subject => message ++ ": " ++ subject
  | none => message

def error (category : Category) (line : Nat) (message : String)
    (subject : Option String) : Diagnostic :=
  { severity := .error
    category
    code := category.code
    line
    message := messageWith message subject }

def warning (category : Category) (line : Nat) (message : String)
    (subject : Option String) : Diagnostic :=
  { error category line message subject with severity := .warning }

def isError (d : Diagnostic) : Bool := d.severity == .error

/-- The same diagnostic as an error. -/
def escalate (d : Diagnostic) : Diagnostic := { d with severity := .error }

/-- How many errors a list holds. -/
def errorCount (ds : List Diagnostic) : Nat := ds.countP isError

def warningCount (ds : List Diagnostic) : Nat := ds.countP fun d => d.severity == .warning

end Diagnostic

end StackAsm
