/-
The diagnostic log of one compilation, with the file and line being
worked on. A diagnostic that names no file gets the current one, and
warnings become errors when the log is told so.
-/
import StackAsm.Diagnostic.Basic
import StackAsm.Name.Reference

namespace StackAsm

structure Log where
  file : String := ""
  line : Nat := 0
  /-- The diagnostics so far, the last one first. -/
  reported : List Diagnostic := []
  warningsAsErrors : Bool := false
deriving Repr

namespace Log

/-- Turn to another file. -/
def openFile (log : Log) (file : String) : Log := { log with file, line := 0 }

def atLine (log : Log) (line : Nat) : Log := { log with line }

/-- The current file and line as a place references come from. -/
def origin (log : Log) (column : Option Nat) : Origin := ⟨log.file, log.line, column⟩

/-- The form in which the log records a diagnostic. -/
def recorded (log : Log) (d : Diagnostic) : Diagnostic :=
  let placed := if d.file.isNone && !log.file.isEmpty then { d with file := some log.file } else d
  if log.warningsAsErrors then placed.escalate else placed

def report (log : Log) (d : Diagnostic) : Log :=
  { log with reported := log.recorded d :: log.reported }

def reportAll (log : Log) (ds : List Diagnostic) : Log := ds.foldl report log

/-- The diagnostics so far, in order. -/
def diagnostics (log : Log) : List Diagnostic := log.reported.reverse

def errorCount (log : Log) : Nat := Diagnostic.errorCount log.reported

def hasErrors (log : Log) : Bool := log.errorCount > 0

/-- The diagnostics so far, which leave the log. -/
def take (log : Log) : List Diagnostic × Log := (log.diagnostics, { log with reported := [] })

end Log

end StackAsm
