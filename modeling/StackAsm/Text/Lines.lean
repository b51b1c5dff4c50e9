/-
Lines of a text. A line ends at a line feed; a carriage return standing
right before that line feed belongs to the line end. What follows the
last line feed is a line of its own unless it is empty, and it keeps any
carriage return.
-/

namespace StackAsm.Text

/-- The line without the carriage return of its line end. -/
def dropReturn (line : List Char) : List Char :=
  if line.getLast? = some '\r' then line.dropLast else line

/-- Split at line feeds; `current` holds the characters of the line being
read, last one first. -/
def linesFrom (current : List Char) : List Char → List (List Char)
  | [] => if current.isEmpty then [] else [current.reverse]
  | c :: rest =>
    if c = '\n' then dropReturn current.reverse :: linesFrom [] rest
    else linesFrom (c :: current) rest

/-- The lines of `text`, line ends removed. -/
def lines (text : String) : List String :=
  (linesFrom [] text.toList).map String.ofList

end StackAsm.Text
