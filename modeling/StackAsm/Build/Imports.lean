/-
Imports by line. A line that starts with `.import` and a quoted path
names a file, relative to the file it stands in. The closure of some
sources under such lines is found without reading anything else of
them, and is what a build is compared with to see whether it is out of
date.
-/
import StackAsm.Build.Worklist
import StackAsm.Text.Blank
import StackAsm.Text.Lines

namespace StackAsm

/-- What follows `front` in a text that starts so. -/
def dropFront? (front : List Char) (text : List Char) : Option (List Char) :=
  if front.isPrefixOf text then some (text.drop front.length) else none

/-- The path that a line imports. -/
def importTarget? (line : String) : Option String := do
  let rest ← dropFront? ".import".toList (Text.trimStart line.toList)
  let rest ← dropFront? ['"'] (Text.trimStart rest)
  match rest.span (· != '"') with
  | (_, []) => none
  | (target, _) => some (String.ofList target)

/-- The paths that the lines of a text import. -/
def importTargets (text : String) : List String := (Text.lines text).filterMap importTarget?

/-- A path that is imported by `importer`. -/
def importPath (importer target : String) : String :=
  match Path.parent? importer with
  | some directory => Path.join directory target
  | none => target

namespace SourceSet

/-- The files visited so far, unless one could not be read. -/
abbrev Scanning := StateT (List String) (Except FileFault)

/-- List a file and find what its lines import. -/
def scan (sources : SourceSet) (place : sources.Place) : Scanning (List sources.Place) := do
  let text ← sources.load place
  let found ← (importTargets text).mapM fun target =>
    sources.locate (importPath place target)
  modify (· ++ [place.val])
  return found

/-- The roots and all that is reached from them through imports. -/
def closure (sources : SourceSet) (roots : List String) : Except FileFault (List String) := do
  let places ← roots.mapM sources.locate
  let (_, files) ← (Worklist.visitAll sources.scan (Worklist.offerAll {} places)).run []
  return files

end SourceSet

end StackAsm
