/-
Compiling. The roots and every file they import are read, each once,
into one program; its references are resolved and its branches fixed.
If nothing was wrong the program is written as a container, together
with a debug name file unless names are to stay in the container.

A file that cannot be opened is reported and the walk goes on.
-/
import StackAsm.Build.Imports
import StackAsm.Build.Report
import StackAsm.Container.Read
import StackAsm.Container.Write
import StackAsm.DebugNames.Binary
import StackAsm.Parse.File
import StackAsm.Program.Resolve
import StackAsm.StackCode.Lower

namespace StackAsm

structure BuildOptions where
  /-- Mark short methods for inlining. -/
  inlining : Bool := false
  /-- Keep names in the container and write no debug names. -/
  omitDebugNames : Bool := false
  /-- Leave array indices unchecked. -/
  unchecked : Bool := false
  /-- Leave out the stack guard of methods. -/
  unguarded : Bool := false
  /-- Show no warnings. -/
  quiet : Bool := false
  warningsAsErrors : Bool := false
deriving DecidableEq, Repr

def BuildOptions.lowering (options : BuildOptions) : LoweringOptions :=
  { inlining := options.inlining
    unchecked := options.unchecked
    unguarded := options.unguarded }

-- ==== reading

/-- What the files read so far amount to. -/
structure Reading where
  program : Program := {}
  log : Log
  files : List String := []
  fixes : List BranchFixes := []
  /-- The first file, and its lines. -/
  first : Option (String × List String) := none

namespace Reading

/-- The diagnostic for a source that cannot be opened. -/
def openFailure (path : String) (line : Nat) (fault : FileFault) : Diagnostic :=
  .error .files line "Cannot open source file" (some (path ++ " (" ++ fault.message ++ ")"))

def report (reading : Reading) (d : Diagnostic) : Reading :=
  { reading with log := reading.log.report d }

/-- Read a text into the program; the answer has the files it imports. -/
def add (reading : Reading) (set : InstructionSet) (file text : String) :
    Reading × List Import :=
  let parsed := reading.program.parse set text (reading.log.openFile file)
  ({ program := parsed.program
     log := parsed.log
     files := reading.files ++ [file]
     fixes := reading.fixes ++ parsed.output.fixes
     first := reading.first.or (some (file, Text.lines text)) },
    parsed.output.imports)

/-- The report on what was read. -/
def toReport (reading : Reading) : Report :=
  { diagnostics := reading.log.diagnostics
    sourceFile := (reading.first.map Prod.fst).filter fun file => !file.isEmpty
    sourceLines := ((reading.first.map Prod.snd).getD []).toArray }

end Reading

namespace SourceSet

variable (sources : SourceSet)

/-- Find the root files; those that cannot be found are reported. -/
def locateRoots (roots : List String) : StateM Reading (List sources.Place) :=
  roots.filterMapM fun root => do
    match sources.locate root with
    | .ok place => return some place
    | .error fault =>
      modify fun reading => reading.report (Reading.openFailure root 0 fault)
      return none

/-- Find an imported file; if it cannot be found, that is reported where
the import stands. -/
def locateImport (importer : String) (wanted : Import) :
    StateM Reading (Option sources.Place) := do
  let target := importPath importer wanted.path
  match sources.locate target with
  | .ok place => return some place
  | .error fault =>
    modify fun reading => reading.report
      { Reading.openFailure target wanted.line fault with file := some importer }
    return none

/-- Read a file; the answer is what it imports. -/
def readFile (set : InstructionSet) (place : sources.Place) :
    StateM Reading (List sources.Place) := do
  match sources.load place with
  | .error fault =>
    modify fun reading => reading.report (Reading.openFailure place 0 fault)
    return []
  | .ok text =>
    let imports ← modifyGet fun reading =>
      let (next, imports) := reading.add set place text
      (imports, next)
    imports.filterMapM (sources.locateImport place)

/-- Read the roots and all that is reached from them. -/
def readAll (set : InstructionSet) (roots : List String) (log : Log) : Reading :=
  let walk : StateM Reading Unit := do
    let places ← sources.locateRoots roots
    Worklist.visitAll (sources.readFile set) (Worklist.offerAll {} places)
  (walk.run { log }).2

end SourceSet

-- ==== output

/-- What a build gives. -/
structure Compiled where
  program : Program
  container : List UInt8
  debugNames : Option (List UInt8)
  /-- The files that were read, in order. -/
  files : List String
  report : Report

/-- Read the program back out of what was written. -/
def Compiled.reload (built : Compiled) (set : InstructionSet) : Except FormatFault Program := do
  let names ← built.debugNames.mapM DebugNames.decode
  Program.ofContainer set names built.container

namespace Reading

/-- Resolve what was read and fix its branches. -/
def link (reading : Reading) : Reading :=
  let (program, _, log) := reading.program.resolve reading.log
  let (program, log, _) := program.fixBranches log reading.fixes
  { reading with program, log }

/-- The failure of a build with errors. -/
def failure (report : Report) : BuildFailure where
  category := ((report.diagnostics.find? Diagnostic.isError).map Diagnostic.category).getD .grammar
  message := "Compilation failed with " ++ toString report.errorCount ++ " error(s)"
  report := report

/-- The failure of a build whose program cannot be written. -/
def formatFailure (reading : Reading) (fault : FormatFault) : BuildFailure where
  category := .format
  message := fault.message
  report := { sourceLines := reading.toReport.sourceLines }

/-- Write a linked program. -/
def write (reading : Reading) (style : ContainerStyle) : Except FormatFault Compiled := do
  let image ← reading.program.toContainer style
  let debugNames ← image.debug.mapM DebugNames.encode
  return {
    program := reading.program
    container := image.bytes
    debugNames
    files := reading.files
    report := reading.toReport }

end Reading

/-- Compile the roots and every file they import. -/
def SourceSet.compile (sources : SourceSet) (set : InstructionSet) (options : BuildOptions)
    (roots : List String) : Except BuildFailure Compiled :=
  let log : Log := { warningsAsErrors := options.warningsAsErrors }
  let reading := (sources.readAll set roots log).link
  if reading.log.hasErrors then .error (Reading.failure reading.toReport)
  else
    (reading.write ⟨set, !options.omitDebugNames⟩).mapError reading.formatFailure

end StackAsm
