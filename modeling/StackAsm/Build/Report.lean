/-
What a build has to say: its diagnostics, with the lines of the first
file it read at hand to show them, and, for a build that failed, why.
-/
import StackAsm.Diagnostic.Basic

namespace StackAsm

structure Report where
  diagnostics : List Diagnostic := []
  /-- The first file that was read. -/
  sourceFile : Option String := none
  /-- The lines of that file. -/
  sourceLines : Array String := #[]
deriving DecidableEq, Repr

namespace Report

/-- The lines to show with a diagnostic: only those of the first file are
at hand. -/
def linesFor (report : Report) (d : Diagnostic) : Option (Array String) :=
  if d.file.isSome && d.file == report.sourceFile then some report.sourceLines else none

def errorCount (report : Report) : Nat := Diagnostic.errorCount report.diagnostics

def warningCount (report : Report) : Nat := Diagnostic.warningCount report.diagnostics

end Report

structure BuildFailure where
  category : Category
  message : String
  report : Report := {}
deriving DecidableEq, Repr

end StackAsm
