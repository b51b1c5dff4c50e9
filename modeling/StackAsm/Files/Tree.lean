/-
A tree of files, as a build sees it: directories and files with their
bytes and times, and the working directory that relative paths start
from. Following a path needs a directory wherever more of the path
remains, and writing makes a file but no directories.

Times only ever get compared. The tree has a clock, which moves on with
every change, and what is written is dated by it.
-/
import StackAsm.Files.Fault
import StackAsm.Files.Node
import StackAsm.Files.Path
import StackAsm.Text.Utf8

namespace StackAsm

/-- The names that lead from the root to a file or directory. -/
abbrev Place := List String

/-- The absolute path of a place. -/
def Place.path (place : Place) : String := "/" ++ "/".intercalate place

/-- A file or directory, and where it is. -/
structure FileEntry where
  place : Place
  node : FileNode
deriving Repr

structure FileTree where
  root : FileNode
  workingDirectory : Place
  clock : Int
deriving Repr

namespace FileTree

-- ==== looking

def node? (tree : FileTree) (place : Place) : Option FileNode := tree.root.at? place

def isDirectoryAt (tree : FileTree) (place : Place) : Bool :=
  (tree.node? place).any FileNode.isDirectory

/-- The longest name a file may have, in bytes. -/
def nameLimit : Nat := 255

/-- The longest path that is looked up as it is spelled, in bytes. -/
def pathLimit : Nat := 4095

def holdsNul (path : String) : Bool := path.toList.contains '\x00'

/-- What lies on the way to a place, innermost first, without the
root. -/
abbrev Trail := List FileNode

/-- What a trail ends at. -/
def ending (tree : FileTree) (trail : Trail) : FileNode := trail.headD tree.root

/-- Follow parts from where a trail ends. -/
def follow (tree : FileTree) : Trail → List Path.Part → Except FileFault Trail
  | trail, [] => .ok trail
  | trail, part :: rest =>
    if (tree.ending trail).isDirectory then
      match part with
      | .root => tree.follow [] rest
      | .here => tree.follow trail rest
      | .up => tree.follow trail.tail rest
      | .name name =>
        if nameLimit < name.utf8ByteSize then .error .nameTooLong
        else
          match (tree.ending trail).child? name with
          | some node => tree.follow (node :: trail) rest
          | none => .error .missing
    else .error .notDirectory

/-- Follow parts from the working directory. -/
def walk (tree : FileTree) (parts : List Path.Part) : Except FileFault FileEntry := do
  let start ← tree.follow [] (tree.workingDirectory.map Path.Part.name)
  let trail ← tree.follow start parts
  return ⟨(trail.map FileNode.name).reverse, tree.ending trail⟩

/-- Whether a path can only name a directory: it ends in a slash or in a
dot of its own. -/
def namesDirectory (path : String) : Bool :=
  Path.dropTail path.toList.reverse != path.toList.reverse

/-- The file or directory a path leads to, part by part, however long the
path is. -/
def resolve (tree : FileTree) (path : String) : Except FileFault FileEntry :=
  if holdsNul path then .error .nulInPath
  else if path.isEmpty then .error .missing
  else do
    let entry ← tree.walk (Path.parts path)
    if namesDirectory path && !entry.node.isDirectory then .error .notDirectory
    else return entry

/-- The file or directory a path leads to. -/
def locate (tree : FileTree) (path : String) : Except FileFault FileEntry :=
  if !holdsNul path && pathLimit < path.utf8ByteSize then .error .nameTooLong
  else tree.resolve path

def contains (tree : FileTree) (path : String) : Bool := (tree.locate path).isOk

def isDirectory (tree : FileTree) (path : String) : Bool :=
  match tree.locate path with
  | .ok entry => entry.node.isDirectory
  | .error _ => false

def isFile (tree : FileTree) (path : String) : Bool :=
  match tree.locate path with
  | .ok entry => !entry.node.isDirectory
  | .error _ => false

def time? (tree : FileTree) (path : String) : Option Int :=
  (tree.locate path).toOption.map (·.node.time)

def read (tree : FileTree) (path : String) : Except FileFault (List UInt8) := do
  match (← tree.locate path).node with
  | .directory .. => .error .isDirectory
  | .file _ bytes _ => .ok bytes

def readText (tree : FileTree) (path : String) : Except FileFault String := do
  match String.fromUTF8? (ByteArray.mk (← tree.read path).toArray) with
  | some text => .ok text
  | none => .error .notText

/-- The text of a file, whatever its bytes are. -/
def readLossy (tree : FileTree) (path : String) : Except FileFault String :=
  (tree.read path).map fun bytes => String.ofList (Utf8.decodeLossy bytes)

/-- The paths of the files below the working directory, in order. -/
def files (tree : FileTree) : List String :=
  match tree.node? tree.workingDirectory with
  | none => []
  | some node =>
    let ways := node.ways.filter fun way => (node.at? way).any fun found => !found.isDirectory
    (ways.map fun way => "/".intercalate way).mergeSort fun path other => !decide (other < path)

-- ==== changing

/-- Put a file or directory, dated by the clock, into the directory at a
place. -/
def put (tree : FileTree) (place : Place) (make : Int → FileNode) : FileTree :=
  { tree with
    root := tree.root.changeAt (make tree.clock).add place
    clock := tree.clock + 1 }

/-- Add the directories along a way that are not there yet. -/
def addDirectories (tree : FileTree) (place : Place) : Place → FileTree
  | [] => tree
  | name :: rest =>
    let next := place ++ [name]
    let tree :=
      if (tree.node? next).isSome then tree else tree.put place (.directory name [])
    tree.addDirectories next rest

/-- The tree that has nothing but its working directory. -/
def empty (workingDirectory : Place) : FileTree :=
  addDirectories ⟨.directory "" [] 0, workingDirectory, 1⟩ [] workingDirectory

/-- Where a file is written: the place of its directory, and its name. -/
def target (tree : FileTree) (path : String) : Except FileFault (Place × String) :=
  let reversed := path.toList.reverse.dropWhile (· == '/')
  if holdsNul path then .error .nulInPath
  else if pathLimit < path.utf8ByteSize then .error .nameTooLong
  else match reversed.span (· != '/') with
  | ([], _) => .error (if path.isEmpty then .missing else .isDirectory)
  | (last, front) => do
    let name := String.ofList last.reverse
    if name = "." ∨ name = ".." then
      let _ ← tree.locate path
      .error .isDirectory
    else
      let directory ←
        if front.isEmpty then tree.walk [] else tree.locate (String.ofList front.reverse)
      let known := (directory.node.child? name).any FileNode.isDirectory
      if path.toList.getLast? = some '/' || known then .error .isDirectory
      else if nameLimit < name.utf8ByteSize then .error .nameTooLong
      else if directory.node.isDirectory then .ok (directory.place, name)
      else .error .notDirectory

/-- Make or replace a file. -/
def write (tree : FileTree) (path : String) (bytes : List UInt8) : Except FileFault FileTree :=
  (tree.target path).map fun (place, name) => tree.put place (.file name bytes)

/-- Give a file or directory another time. -/
def setTime (tree : FileTree) (path : String) (time : Int) : Except FileFault FileTree := do
  let found ← tree.locate path
  return { tree with root := tree.root.changeAt (FileNode.setTime time) found.place }

/-- Take a file away. -/
def remove (tree : FileTree) (path : String) : Except FileFault FileTree := do
  let found ← tree.locate path
  if found.node.isDirectory then .error .isDirectory
  else
    return { tree with
      root := tree.root.changeAt (FileNode.drop found.node.name) found.place.dropLast }

/-- Make the directories a path leads through, and the one it names. -/
def makeDirectories (tree : FileTree) (path : String) : FileTree :=
  let step (place : Place) : Path.Part → Place
    | .root => []
    | .here => place
    | .up => place.dropLast
    | .name name => place ++ [name]
  let place := (Path.parts path).foldl step tree.workingDirectory
  tree.addDirectories [] place

end FileTree

end StackAsm
