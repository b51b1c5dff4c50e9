/-
The program as a whole: from arguments, environment and files to what is
printed, an exit status, and the files afterwards.

Diagnostics go to the terminal or to a file, as text or as records. The
file is made before the build starts. If the build itself writes to that
same file, the diagnostics end up over the front of what it wrote.
-/
import StackAsm.CommandLine.Run
import StackAsm.Diagnostic.Record
import StackAsm.Diagnostic.Render

namespace StackAsm.CommandLine

structure Outcome where
  status : UInt8
  stdout : String := ""
  stderr : String := ""
deriving DecidableEq, Repr

-- ==== usage

def versionText : String := "cpasm " ++ version ++ "\n"

def helpText : String :=
  "Assembler for the CP register-and-stack bytecode\n\n"
    ++ "Usage: cpasm [OPTIONS] <INPUT>...\n\n"
    ++ "Arguments:\n"
    ++ "  <INPUT>...               Source file or glob pattern\n\n"
    ++ "Options:\n"
    ++ "  -o, --out <FILE>             Container output path\n"
    ++ "      --emit-ir <FILE>         Write the IR of the container to FILE\n"
    ++ "  -l, --list <FILE>            Write a listing of the container to FILE\n"
    ++ "      --force                  Rebuild even when the output is up to date\n"
    ++ "      --format <FORMAT>        Diagnostic output format: text or json\n"
    ++ "  -E, --error <FILE>           Write diagnostics to FILE\n"
    ++ "  -q, --quiet                  Suppress warnings\n"
    ++ "      --Werror                 Treat warnings as errors\n"
    ++ "  -v, --verbose                Log progress\n"
    ++ "      --inline                 Mark small methods for inlining in the IR\n"
    ++ "      --omit-debug-info        Keep names in the container\n"
    ++ "      --unsafe-codegen         Omit bounds checks in the IR\n"
    ++ "      --allow-stack-overflow   Omit the stack guard in the IR\n"
    ++ "  -h, --help                   Print help\n"
    ++ "  -V, --version                Print version\n"

def Usage.message : Usage → String
  | .unknownArgument => "unexpected argument"
  | .invalidValue => "missing or invalid value"
  | .missingInput => "no <INPUT> was given"
  | .repeated => "an argument was given twice"
  | .unneededValue => "a value was given to an argument that takes none"
  | .help => helpText
  | .version => versionText

/-- What is printed for a command line that is not carried out. -/
def Usage.outcome : Usage → Outcome
  | .help => { status := 0, stdout := helpText }
  | .version => { status := 0, stdout := versionText }
  | usage =>
    { status := 2
      stderr := "error: " ++ usage.message ++ "\n\nFor more information, try '--help'.\n" }

-- ==== diagnostics

/-- A diagnostic on lines of its own. -/
def showDiagnostic (format : OutputFormat) (color : Bool) (report : Report) (d : Diagnostic) :
    String :=
  match format with
  | .json => d.record
  | .text => d.render (report.linesFor d) color

def unlines (lines : List String) : String := String.join (lines.map (· ++ "\n"))

/-- What is shown of a run. A quiet run shows no warnings, and nothing if
it went well. -/
def showResult (config : Configuration) (color : Bool) : Except BuildFailure Report → String
  | .ok report =>
    if config.build.quiet then ""
    else unlines (report.diagnostics.map (showDiagnostic config.format color report))
  | .error failure =>
    let shown := failure.report.diagnostics.filter fun d => !config.build.quiet || d.isError
    let last := if config.format = .json then [] else [failure.message]
    unlines (shown.map (showDiagnostic config.format color failure.report) ++ last)

-- ==== execution

/-- Put bytes over the front of a file. -/
def overwrite (tree : FileTree) (path : String) (bytes : List UInt8) : FileTree :=
  match tree.read path with
  | .ok old => (tree.write path (bytes ++ old.drop bytes.length)).toOption.getD tree
  | .error _ => tree

/-- Whether text on the terminal is coloured. -/
def usesColor (config : Configuration) (environment : Environment) : Bool :=
  config.errorFile.isNone && (environment.lookup "NO_COLOR").isNone

/-- Carry out a configuration and show how it went. -/
def Configuration.execute (config : Configuration) (set : InstructionSet) (tree : FileTree)
    (environment : Environment) : FileTree × Outcome :=
  let status (result : Except BuildFailure Report) : UInt8 := if result.isOk then 0 else 1
  match config.errorFile with
  | none =>
    let (tree, result) := config.run set tree
    (tree,
      { status := status result
        stderr := showResult config (usesColor config environment) result })
  | some path =>
    match tree.write path [] with
    | .error fault =>
      (tree,
        { status := 1
          stderr := "Failed to open diagnostics sink: " ++ fault.message ++ "\n" })
    | .ok tree =>
      let (tree, result) := config.run set tree
      let shown := textBytes (showResult config false result)
      let tree := if shown.isEmpty then tree else overwrite tree path shown
      (tree, { status := status result })

/-- Carry out the arguments behind the program's name. -/
def execute (set : InstructionSet) (tree : FileTree) (environment : Environment)
    (arguments : List String) : FileTree × Outcome :=
  match read arguments with
  | .error usage => (tree, usage.outcome)
  | .ok given =>
    match given.configure tree environment with
    | .error fault => (tree, { status := 1, stderr := fault.message ++ "\n" })
    | .ok config => config.execute set tree environment

end StackAsm.CommandLine
