/-
The assembler as a program. What a run may look at is first recorded as
a tree of files: the inputs, all that they import, what input patterns
start from, and what stands where the outputs go. The run itself is
worked out on that tree. Then the files it changed are written, its text
is printed, and its status is handed back.
-/
import StackAsm.CommandLine.Execute
import StackAsm.Machine.Standard

namespace StackAsm.CommandLine

-- ==== recording

/-- What stands at a place; directories and files only. -/
def lookAt (place : Place) : IO (Option FileNode) := do
  try
    let path := (← IO.currentDir) / place.path
    let found ← path.metadata
    let ⟨seconds, nanoseconds⟩ := found.modified
    let time := seconds * 1000000000 + nanoseconds.toNat
    let name := place.getLastD ""
    match found.type with
    | .dir => return some (.directory name [] time)
    | .file =>
      let bytes ← IO.FS.readBinFile path
      return some (.file name bytes.data.toList time)
    | _ => return none
  catch _ => return none

/-- Record what stands at a place, unless that has been done. -/
def recordAt (tree : FileTree) (place : Place) : IO FileTree := do
  if (tree.node? place).isSome then return tree
  match ← lookAt place with
  | some node =>
    let add (parent : FileNode) : FileNode := (node.add parent).setTime parent.time
    return { tree with root := tree.root.changeAt add place.dropLast }
  | none => return tree

/-- Record what a path leads through and where it ends. -/
def recordPath (tree : FileTree) (path : String) : IO FileTree := do
  let mut tree := tree
  let mut place := tree.workingDirectory
  for part in Path.parts path do
    match part with
    | .root => place := []
    | .here => pure ()
    | .up => place := place.dropLast
    | .name name => place := place ++ [name]
    tree ← recordAt tree place
  return tree

/-- Record all that lies below a place. -/
partial def recordBelow (tree : FileTree) (place : Place) : IO FileTree := do
  let mut tree ← recordAt tree place
  if tree.isDirectoryAt place then
    for child in ← ((← IO.currentDir) / place.path).readDir do
      tree ← recordBelow tree (place ++ [child.fileName])
  return tree

/-- Record what a pattern may stand for: all below the names it starts
with. -/
def recordPattern (tree : FileTree) (pattern : FilePattern) : IO FileTree := do
  let plain := pattern.parts.takeWhile fun part => part matches .literal _
  let names := plain.filterMap fun
    | .literal name => some name
    | _ => none
  let start := names.foldl Path.join (if pattern.absolute then "/" else "")
  let tree ← recordPath tree start
  match tree.walk (Path.parts start) with
  | .ok entry => recordBelow tree entry.place
  | .error _ => return tree

/-- Record sources and all that they import. -/
partial def recordSources (tree : FileTree) (seen : List String) :
    List String → IO FileTree
  | [] => return tree
  | path :: rest => do
    let tree ← recordPath tree path
    match tree.sources.locate path with
    | .error _ => recordSources tree seen rest
    | .ok place =>
      if seen.contains place.val then recordSources tree seen rest
      else
        let text := (tree.sources.load place).toOption.getD ""
        let parsed := Program.parse {} .standard text {}
        let targets := parsed.output.imports.map Import.path ++ importTargets text
        let found := targets.map (importPath place)
        recordSources tree (place.val :: seen) (found ++ rest)

-- ==== running

/-- The variables that a run depends on. -/
def variableNames : List String :=
  ["CPASM_INLINE", "CPASM_OMIT_DEBUG_INFO", "CPASM_UNSAFE_CODEGEN",
   "CPASM_ALLOW_STACK_OVERFLOW", "CPASM_QUIET", "CPASM_WERROR", "NO_COLOR"]

def readEnvironment : IO Environment :=
  variableNames.filterMapM fun name => do
    return (← IO.getEnv name).map fun value => (name, value)

/-- The files that a command line is about. -/
def recordGiven (tree : FileTree) (environment : Environment) (given : Given) :
    IO FileTree := do
  let mut tree := tree
  for input in given.inputs.reverse do
    if FilePattern.isPattern input then
      if let .ok pattern := FilePattern.ofText input then
        tree ← recordPattern tree pattern
  for setting in given.settings do
    tree ← recordPath tree setting.2
  match given.configure tree environment with
  | .error _ => return tree
  | .ok config =>
    for path in config.output :: config.debugOutput.toList do
      tree ← recordPath tree path
    recordSources tree [] config.inputs

/-- The tree that a run starts from. -/
def recordRun (environment : Environment) (arguments : List String) : IO FileTree := do
  let working := (← IO.currentDir).toString
  let start := (Path.parts working).filterMap fun
    | .name name => some name
    | _ => none
  let tree ← recordPath ⟨.directory "" [] 0, start, 0⟩ working
  let tree ← match read arguments with
    | .ok given => recordGiven tree environment given
    | .error _ => pure tree
  let times := tree.root.ways.filterMap fun way => (tree.node? way).map FileNode.time
  let latest := times.foldl max 0
  return { tree with clock := latest + 1 }

/-- Write the files that a run has changed. -/
def writeChanges (before after : FileTree) : IO Unit := do
  for place in after.root.ways do
    if let some (.file _ bytes time) := after.node? place then
      unless (before.node? place).any (·.time == time) do
        IO.FS.writeBinFile ((← IO.currentDir) / Place.path place) ⟨bytes.toArray⟩

end StackAsm.CommandLine

open StackAsm in
def main (arguments : List String) : IO UInt32 := do
  let environment ← CommandLine.readEnvironment
  let before ← CommandLine.recordRun environment arguments
  let (after, outcome) := CommandLine.execute .standard before environment arguments
  CommandLine.writeChanges before after
  IO.print outcome.stdout
  IO.eprint outcome.stderr
  return outcome.status.toUInt32
