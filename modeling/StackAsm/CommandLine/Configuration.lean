/-
A configuration: what a command line asks for, with its input patterns
expanded, its output paths filled in and its switches completed from
the environment. A configuration never lets the container take the place
of an input.
-/
import StackAsm.Build.Compile
import StackAsm.CommandLine.Arguments
import StackAsm.Files.Matching

namespace StackAsm.CommandLine

/-- Environment variables that are set. -/
abbrev Environment := List (String × String)

inductive ConfigurationFault where
  | invalidBoolean (name value : String)
  | invalidPattern (pattern : String) (fault : PatternFault)
  | nothingMatches (pattern : String)
  | noInputs
  | overwritesInput (path : String)
deriving DecidableEq, Repr

def ConfigurationFault.message : ConfigurationFault → String
  | .invalidBoolean name value => "Invalid boolean value for " ++ name ++ ": " ++ value
  | .invalidPattern pattern fault =>
    "Invalid input pattern " ++ pattern ++ ": " ++ fault.message
  | .nothingMatches pattern => "No input files match: " ++ pattern
  | .noInputs => "No input files"
  | .overwritesInput path => "Output would overwrite an input: " ++ path

/-- A configuration that is refused, as the failure of a build. -/
def ConfigurationFault.failure (fault : ConfigurationFault) : BuildFailure :=
  { category := .commandLine, message := fault.message }

-- ==== switches

def yesWords : List String := ["1", "true", "yes", "on"]

def noWords : List String := ["0", "false", "no", "off"]

/-- The switch that a variable sets; a blank one sets none. -/
def Environment.boolean? (environment : Environment) (name : String) :
    Except ConfigurationFault (Option Bool) :=
  match environment.lookup name with
  | none => .ok none
  | some raw =>
    let value := String.ofList ((Text.trim raw.toList).map Char.toLower)
    if value.isEmpty then .ok none
    else if yesWords.contains value then .ok (some true)
    else if noWords.contains value then .ok (some false)
    else .error (.invalidBoolean name value)

/-- Whether a switch is given, or set by its variable. -/
def Given.isOn (given : Given) (environment : Environment) (which : Switch) (name : String) :
    Except ConfigurationFault Bool := do
  if given.switches.contains which then return true
  else return (← environment.boolean? name).getD false

def Given.buildOptions (given : Given) (environment : Environment) :
    Except ConfigurationFault BuildOptions := do
  return {
    inlining := ← given.isOn environment .inlining "CPASM_INLINE"
    omitDebugNames := ← given.isOn environment .omitDebugNames "CPASM_OMIT_DEBUG_INFO"
    unchecked := ← given.isOn environment .unchecked "CPASM_UNSAFE_CODEGEN"
    unguarded := ← given.isOn environment .unguarded "CPASM_ALLOW_STACK_OVERFLOW"
    quiet := ← given.isOn environment .quiet "CPASM_QUIET"
    warningsAsErrors := ← given.isOn environment .warningsAsErrors "CPASM_WERROR" }

-- ==== inputs

/-- Paths that inputs stand for. -/
structure InputPaths where
  /-- The paths, the last one first. -/
  paths : List String := []
  /-- The parts of every path. -/
  seen : Table (List Path.Part) Unit := ⟨{}⟩

namespace InputPaths

def add (inputs : InputPaths) (path : String) : InputPaths :=
  ⟨path :: inputs.paths, inputs.seen.insert (Path.parts path) ()⟩

/-- Whether the path is there, perhaps spelt differently. -/
def contains (inputs : InputPaths) (path : String) : Bool :=
  (inputs.seen.get? (Path.parts path)).isSome

/-- Add the files that a pattern stands for, each path once; the answer
says whether one was new. -/
def addMatches (inputs : InputPaths) (found : List String) : InputPaths × Bool :=
  found.foldl
    (fun (inputs, grown) path =>
      if inputs.contains path then (inputs, grown) else (inputs.add path, true))
    (inputs, false)

/-- Add an input: a path as it is, or the files that a pattern stands
for. A pattern must add at least one. -/
def addInput (tree : FileTree) (inputs : InputPaths) (input : String) :
    Except ConfigurationFault InputPaths := do
  if FilePattern.isPattern input then
    let pattern ← (FilePattern.ofText input).mapError (ConfigurationFault.invalidPattern input)
    let (added, grown) := inputs.addMatches ((tree.matching pattern).filter tree.isFile)
    if grown then return added else .error (.nothingMatches input)
  else return inputs.add input

end InputPaths

/-- The files that inputs stand for. -/
def expandInputs (tree : FileTree) (inputs : List String) :
    Except ConfigurationFault (List String) := do
  return (← inputs.foldlM (InputPaths.addInput tree) {}).paths.reverse

-- ==== configuration

inductive OutputFormat where
  | text
  | json
deriving DecidableEq, Repr

structure Configuration where
  inputs : List String
  /-- Where the container goes. -/
  output : String
  /-- Where the debug names go, unless they stay in the container. -/
  debugOutput : Option String
  /-- Where the stack code goes, if it is asked for. -/
  stackCode : Option String
  /-- Where the listing goes, if it is asked for. -/
  listing : Option String
  /-- Build even if nothing has changed. -/
  force : Bool
  verbose : Bool
  format : OutputFormat
  /-- Where diagnostics go instead of the terminal. -/
  errorFile : Option String
  build : BuildOptions
deriving DecidableEq, Repr

def containerExtension : String := "cpbc"

def debugExtension : String := "cpdb"

/-- Where the container of an input goes if nothing else is said. -/
def defaultOutput (input : String) : String := Path.withExtension input containerExtension

/-- Where the debug names of a container go. -/
def debugPath (output : String) : String := Path.withExtension output debugExtension

/-- Complete what was given to a configuration. -/
def Given.configure (given : Given) (tree : FileTree) (environment : Environment) :
    Except ConfigurationFault Configuration := do
  let build ← given.buildOptions environment
  let inputs ← expandInputs tree given.inputs.reverse
  match inputs with
  | [] => .error .noInputs
  | first :: _ =>
    let output := (given.setting? .output).getD (defaultOutput first)
    if inputs.any (Path.same output) then .error (.overwritesInput output)
    else
      return {
        inputs
        output
        debugOutput := if build.omitDebugNames then none else some (debugPath output)
        stackCode := given.setting? .stackCode
        listing := given.setting? .listing
        force := given.switches.contains .force
        verbose := given.switches.contains .verbose
        format := if given.setting? .format = some "json" then .json else .text
        errorFile := given.setting? .errorFile
        build }

end StackAsm.CommandLine
