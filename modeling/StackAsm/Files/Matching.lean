/-
The files and directories a pattern stands for. Names are taken in
order, and a directory's own path comes before those below it. Paths
start as the pattern does: one that starts in the working directory
gives paths without a leading dot.
-/
import StackAsm.Files.Pattern
import StackAsm.Files.Tree

namespace StackAsm.FileTree

/-- Where names are added: nothing stands for the working directory. -/
def base (path : String) : String := if Path.parts path = [.here] then "" else path

/-- The ways to what a directory holds, at any depth. -/
def waysBelow (tree : FileTree) (path : String) : List Place :=
  match tree.locate path with
  | .ok entry => entry.node.ways
  | .error _ => []

/-- The names of what a directory holds. -/
def namesIn (tree : FileTree) (path : String) : List String :=
  match tree.locate path with
  | .ok entry => entry.node.children.map FileNode.name
  | .error _ => []

/-- A path with the names of a way added. -/
def along (path : String) (way : Place) : String :=
  Path.join (base path) ("/".intercalate way)

/-- Of `..` and `.`, those that match a part that starts with a dot. -/
def dots : PatternPart → List String
  | .wild (.char '.' :: rest) =>
    ["..", "."].filter fun name => PatternPart.accepts name (.wild (.char '.' :: rest))
  | _ => []

/-- The paths that the parts of a pattern stand for, seen from a path. A
name without wildcards is looked up and not searched for. -/
def expand (tree : FileTree) (directories : Bool) : List PatternPart → String → List String
  | [], path => if directories && !tree.isDirectory path then [] else [path]
  | .literal name :: rest, path =>
    let next := Path.join (base path) name
    let found :=
      if name = "." ∨ name = ".." then tree.isDirectory path else tree.contains next
    if found then tree.expand directories rest next else []
  | [.anyDepth], path =>
    ((tree.waysBelow path).map (along path)).filter tree.isDirectory
  | .anyDepth :: part :: rest, path =>
    (tree.waysBelow path).flatMap fun way =>
      if part.accepts (way.getLastD "") then tree.expand directories rest (along path way)
      else []
  | .wild wildcards :: rest, path =>
    if tree.isDirectory path then
      let part := PatternPart.wild wildcards
      let names := (tree.namesIn path).filter part.accepts
      (dots part).flatMap (fun name => tree.expand directories rest (Path.join path name))
        ++ names.flatMap fun name => tree.expand directories rest (Path.join (base path) name)
    else []

/-- The paths a pattern stands for. -/
def matching (tree : FileTree) (pattern : FilePattern) : List String :=
  tree.expand pattern.directories pattern.parts (if pattern.absolute then "/" else ".")

end StackAsm.FileTree
