/-
Dotted names. Namespaces, types and members are named by paths whose
parts stand between dots; the empty path is the global namespace.
-/

namespace StackAsm.Text

/-- The path of `name` inside `outer`; the empty path adds nothing. -/
def join (outer name : String) : String :=
  if outer.isEmpty then name else outer ++ "." ++ name

/-- The parts between the dots; a text without a dot is one part. -/
def dottedParts (name : String) : List String :=
  (name.toList.splitOn '.').map String.ofList

/-- The part before the first dot, and what follows that dot. -/
def splitFirst (name : String) : String × Option String :=
  match name.toList.span (· != '.') with
  | (head, []) => (String.ofList head, none)
  | (head, _ :: tail) => (String.ofList head, some (String.ofList tail))

/-- What stands before and after the last dot, if there is one. -/
def splitLast? (name : String) : Option (String × String) :=
  match name.toList.reverse.span (· != '.') with
  | (_, []) => none
  | (last, _ :: front) =>
    some (String.ofList front.reverse, String.ofList last.reverse)

/-- What follows `outer` and a dot in `name`, if `name` starts so. -/
def within? (outer name : String) : Option String :=
  let path := outer.toList ++ ['.']
  if path.isPrefixOf name.toList then
    some (String.ofList (name.toList.drop path.length))
  else
    none

end StackAsm.Text
