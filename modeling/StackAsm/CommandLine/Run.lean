/-
Running a configuration. The build is skipped while its container is no
older than any file it was made from. Otherwise the container and the
debug names are written, and then, from a program read back out of
them, the listing and the stack code. Writing stops at the first
failure; what was written before it stays.
-/
import StackAsm.CommandLine.Configuration
import StackAsm.Program.Listing
import StackAsm.StackCode.Text

namespace StackAsm.CommandLine

def version : String := "0.1.0"

-- ==== being current

/-- Whether `output` is no older than any of some files. -/
def isCurrent (tree : FileTree) (files : List String) (output : String) : Bool :=
  match tree.time? output with
  | none => false
  | some made => files.all fun file => (tree.time? file).any fun time => time ≤ made

/-- Whether nothing has changed since the container was made. -/
def Configuration.isCurrent (config : Configuration) (tree : FileTree) : Bool :=
  match tree.sources.closure config.inputs with
  | .ok files => CommandLine.isCurrent tree files config.output
  | .error _ => false

-- ==== outputs

/-- A file to write, unless its content cannot be made. -/
structure Output where
  path : String
  content : Except BuildFailure (List UInt8)

/-- The failure to write a file. -/
def writeFailure (path reason : String) : BuildFailure :=
  { category := .files
    message := Diagnostic.messageWith "Error opening file for write"
      (some (path ++ " (" ++ reason ++ ")")) }

def textBytes (text : String) : List UInt8 := text.toUTF8.data.toList

/-- The program in what was built, names included. -/
def reload (set : InstructionSet) (built : Compiled) : Except BuildFailure Program :=
  (built.reload set).mapError fun fault => { category := .format, message := fault.message }

/-- The listing of a program, under the assembler's name. -/
def listingBytes (set : InstructionSet) (path : String) (program : Program) :
    Except BuildFailure (List UInt8) :=
  match program.listing set with
  | .ok text => .ok (textBytes (Listing.ofLines (Listing.header ("cpasm v" ++ version)) ++ text))
  | .error fault => .error (writeFailure path fault.message)

def stackCodeBytes (set : InstructionSet) (options : BuildOptions) (program : Program) :
    Except BuildFailure (List UInt8) :=
  match program.lower set options.lowering with
  | .ok lowered => .ok (textBytes lowered.render)
  | .error fault => .error { category := .lowering, message := fault.message }

/-- The files that a build gives, in the order they are written. -/
def Configuration.outputs (config : Configuration) (set : InstructionSet) (built : Compiled) :
    List Output :=
  let program := reload set built
  let debugNames := (config.debugOutput.bind fun path =>
    built.debugNames.map fun bytes => ⟨path, .ok bytes⟩).toList
  let listings := config.listing.toList.map fun path =>
    ⟨path, program.bind (listingBytes set path)⟩
  let codes := config.stackCode.toList.map fun path =>
    ⟨path, program.bind (stackCodeBytes set config.build)⟩
  ⟨config.output, .ok built.container⟩ :: debugNames ++ listings ++ codes

/-- Write files up to the first failure. -/
def writeOutputs (tree : FileTree) : List Output → FileTree × Option BuildFailure
  | [] => (tree, none)
  | output :: rest =>
    match output.content with
    | .error failure => (tree, some failure)
    | .ok bytes =>
      match tree.write output.path bytes with
      | .error fault => (tree, some (writeFailure output.path fault.message))
      | .ok tree => writeOutputs tree rest

-- ==== running

/-- Carry out a configuration: the files afterwards, and how it went. -/
def Configuration.run (config : Configuration) (set : InstructionSet) (tree : FileTree) :
    FileTree × Except BuildFailure Report :=
  if !config.force && config.isCurrent tree then (tree, .ok {})
  else
    match tree.sources.compile set config.build config.inputs with
    | .error failure => (tree, .error failure)
    | .ok built =>
      match writeOutputs tree (config.outputs set built) with
      | (tree, some failure) => (tree, .error failure)
      | (tree, none) => (tree, .ok built.report)

end StackAsm.CommandLine
