/-
Diagnostics as records for other programs: one JSON object on a line,
its keys in order.
-/
import StackAsm.Diagnostic.Basic
import StackAsm.Text.Hex

namespace StackAsm

namespace Text

/-- How `c` is written in a JSON string. -/
def jsonChar (c : Char) : List Char :=
  if c = '"' then ['\\', '"']
  else if c = '\\' then ['\\', '\\']
  else if c = '\n' then ['\\', 'n']
  else if c = '\r' then ['\\', 'r']
  else if c = '\t' then ['\\', 't']
  else if c = '\x08' then ['\\', 'b']
  else if c = '\x0c' then ['\\', 'f']
  else if c < ' ' then
    ['\\', 'u'] ++ (padLeft '0' 4 (String.ofList (Nat.toDigits 16 c.toNat))).toList
  else [c]

def jsonString (text : String) : String :=
  String.ofList ('"' :: text.toList.flatMap jsonChar ++ ['"'])

def jsonStrings (texts : List String) : String :=
  "[" ++ ",".intercalate (texts.map jsonString) ++ "]"

end Text

/-- The diagnostic as one JSON object. -/
def Diagnostic.record (d : Diagnostic) : String :=
  let column := (d.column.map toString).getD "null"
  let file := (d.file.map Text.jsonString).getD "null"
  let fields :=
    [("code", Text.jsonString d.code), ("col_start", column), ("file", file),
     ("help", Text.jsonStrings d.help), ("line", toString d.line),
     ("message", Text.jsonString d.message), ("notes", Text.jsonStrings d.notes),
     ("severity", Text.jsonString d.severity.word)]
  "\x7b" ++ ",".intercalate (fields.map fun field => Text.jsonString field.1 ++ ":" ++ field.2)
    ++ "\x7d"

end StackAsm
