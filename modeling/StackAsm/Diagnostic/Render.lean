/-
Diagnostic text: a header, the source line with the column marked, the
notes and helps, and the message. A source line that is not at hand is
said to be unavailable.
-/
import StackAsm.Diagnostic.Basic
import StackAsm.Text.Hex

namespace StackAsm.Diagnostic

/-- One character or caret in red when `color` is set. -/
def paint (color : Bool) (text : List Char) : List Char :=
  if color then "\x1b[31m".toList ++ text ++ "\x1b[0m".toList else text

/-- Mark the character at a column counted from one. Past the end of the
line a caret is added; inside it only colour marks the character. -/
def highlight (line : String) (column : Option Nat) (color : Bool) : String :=
  match column with
  | none | some 0 => line
  | some (index + 1) =>
    let chars := line.toList
    match chars.drop index with
    | [] => String.ofList (chars ++ paint color ['^'])
    | c :: rest => String.ofList (chars.take index ++ paint color [c] ++ rest)

/-- The source line a diagnostic points at, with its number. Line zero
shows the first line. -/
def contextLine (line : Nat) (column : Option Nat) (source : Option (Array String))
    (color : Bool) : String :=
  let shown :=
    match source.bind fun lines => lines[line - 1]? with
    | some text => highlight text column color
    | none => "<source unavailable>"
  Text.padLeft ' ' 5 (toString line) ++ " | " ++ shown

/-- The diagnostic on one line. -/
def brief (d : Diagnostic) : String :=
  toString d.line ++ ": " ++ d.severity.label ++ " [" ++ d.code ++ "] - " ++ d.message

/-- Where the diagnostic points, its severity and code. -/
def header (d : Diagnostic) : String :=
  let place := toString d.line ++ ": " ++ d.severity.label ++ " [" ++ d.code ++ "]"
  match d.file with
  | some file => file ++ ":" ++ place
  | none => place

/-- The diagnostic in full. -/
def render (d : Diagnostic) (source : Option (Array String)) (color : Bool) : String :=
  let parts :=
    [d.header, contextLine d.line d.column source color]
      ++ d.notes.map ("note: " ++ ·)
      ++ d.help.map ("help: " ++ ·)
      ++ [d.severity.label ++ ": " ++ d.message]
  "\n".intercalate parts

end StackAsm.Diagnostic
