/-
Paths, as text. A path names a place by parts between slashes. Empty
pieces do not count, nor does a dot unless it stands first. Two paths
are the same when their parts are.

Folding a path works `.` and `..` off its parts without looking at any
file. The extension of a file name is what follows its last dot.
-/

namespace StackAsm.Path

-- ==== parts

inductive Part where
  /-- The slash a path starts with. -/
  | root
  /-- A dot that stands first. -/
  | here
  | up
  | name (text : String)
deriving DecidableEq, Hashable, Repr

def Part.text : Part → String
  | .root => "/"
  | .here => "."
  | .up => ".."
  | .name text => text

/-- The part that a piece between slashes stands for. -/
def partOf? (piece : List Char) : Option Part :=
  if piece = [] ∨ piece = ['.'] then none
  else if piece = ['.', '.'] then some .up
  else some (.name (String.ofList piece))

/-- The part given by the way a path starts. -/
def leading : List (List Char) → List Part
  | [] :: _ :: _ => [.root]
  | ['.'] :: _ => [.here]
  | _ => []

def parts (path : String) : List Part :=
  let pieces := path.toList.splitOn '/'
  leading pieces ++ pieces.filterMap partOf?

/-- Whether two paths have the same parts. -/
def same (path other : String) : Bool := parts path == parts other

def isAbsolute (path : String) : Bool := path.toList.head? == some '/'

/-- The path `next` seen from the directory `path`; an absolute `next`
stands for itself. -/
def join (path next : String) : String :=
  if isAbsolute next then next
  else if path.isEmpty || path.toList.getLast? == some '/' then path ++ next
  else path ++ "/" ++ next

/-- The shortest text with these parts. -/
def render : List Part → String
  | .root :: rest => "/" ++ "/".intercalate (rest.map Part.text)
  | parts => "/".intercalate (parts.map Part.text)

-- ==== folding

/-- Add a part to the parts so far, innermost first. `..` takes the
innermost part away, whatever it is, unless there is none besides the
root. -/
def foldStep (inner : List Part) : Part → List Part
  | .here => inner
  | .up =>
    match inner with
    | [] => [.up]
    | [.root] => [.up, .root]
    | _ :: outer => outer
  | part => part :: inner

def foldParts (parts : List Part) : List Part := (parts.foldl foldStep []).reverse

/-- Work off `.` and `..`. -/
def fold (path : String) : String := render (foldParts (parts path))

-- ==== names

/-- Drop the slashes, and the dots between slashes, that a path ends
with; the path is given last character first. -/
def dropTail : List Char → List Char
  | '/' :: rest => dropTail rest
  | '.' :: '/' :: rest => dropTail rest
  | text => text

/-- What stands before the last piece of a path, and that piece. -/
def splitLast? (path : String) : Option (List Char × List Char) :=
  match (dropTail path.toList.reverse).span (· != '/') with
  | ([], _) => none
  | (last, front) => some (front.reverse, last.reverse)

/-- Like `splitLast?`, for a path that ends in a name. -/
def splitName? (path : String) : Option (List Char × List Char) :=
  (splitLast? path).filter fun split => split.2 ≠ ['.'] ∧ split.2 ≠ ['.', '.']

/-- The directory a path lies in; neither the root nor the empty path
lies in one. -/
def parent? (path : String) : Option String :=
  (splitLast? path).map fun split =>
    match dropTail split.1.reverse with
    | [] => if split.1.isEmpty then "" else "/"
    | directory => String.ofList directory.reverse

/-- The stem and the extension of a name. A dot at its front starts no
extension. -/
def splitExtension (name : List Char) : List Char × Option (List Char) :=
  match name.reverse.span (· != '.') with
  | (extension, _ :: c :: stem) => ((c :: stem).reverse, some extension.reverse)
  | _ => (name, none)

/-- Put an extension behind the stem; a path without a name is left. -/
def setExtension (path extension : String) : String :=
  match splitName? path with
  | some (front, name) =>
    String.ofList (front ++ (splitExtension name).1) ++ "." ++ extension
  | none => path

/-- Replace the extension. The old one is cut off first; if only dots are
left of the name then, nothing is put in its place. -/
def withExtension (path extension : String) : String :=
  match (splitName? path).bind fun split => (splitExtension split.2).2 with
  | some old =>
    let chars := path.toList
    setExtension (String.ofList (chars.take (chars.length - old.length))) extension
  | none => setExtension path extension

end StackAsm.Path
