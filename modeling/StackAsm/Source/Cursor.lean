/-
Source cursors. A cursor is the text still to be read together with the
line and column of its first character. Lines and columns count from
one; a column counts characters, and a line feed starts a new line.

Readers return the cursor behind what they consumed, so the consumed
text is what the old rest has in front of the new one.
-/
import StackAsm.Text.Blank

namespace StackAsm

/-- A line and a column, both counted from one. -/
structure Position where
  line : Nat
  column : Nat
deriving DecidableEq, Repr, Inhabited

namespace Position

def start : Position := ⟨1, 1⟩

/-- The position behind `c` when `c` stands here. -/
def after (here : Position) (c : Char) : Position :=
  if c = '\n' then ⟨here.line + 1, 1⟩ else ⟨here.line, here.column + 1⟩

/-- Mark `message` with this position. -/
def locate (here : Position) (message : String) : String :=
  toString here.line ++ ":" ++ toString here.column ++ ": " ++ message

end Position

/-- The unread text and where it starts. -/
structure Cursor where
  rest : List Char
  position : Position
deriving DecidableEq, Repr, Inhabited

namespace Cursor

/-- At the start of a source text. -/
def ofText (source : String) : Cursor := ⟨source.toList, .start⟩

def line (cur : Cursor) : Nat := cur.position.line

def column (cur : Cursor) : Nat := cur.position.column

def atEnd (cur : Cursor) : Bool := cur.rest.isEmpty

def peek? (cur : Cursor) : Option Char := cur.rest.head?

-- ==== moving ahead

/-- Behind the next character; stays put at the end. -/
def advance : Cursor → Cursor
  | ⟨[], here⟩ => ⟨[], here⟩
  | ⟨c :: rest, here⟩ => ⟨rest, here.after c⟩

/-- Behind the next `n` characters. -/
def drop : Nat → Cursor → Cursor
  | 0, cur => cur
  | n + 1, cur => drop n cur.advance

/-- Whether `text` comes next. -/
def startsWith (cur : Cursor) (text : List Char) : Bool :=
  text.isPrefixOf cur.rest

-- ==== trivia

/-- Behind blanks and comments. A comment runs from a semicolon to the
end of its line. With `inline` the line feed itself is not passed. -/
def triviaFrom (inline inComment : Bool) : List Char → Position → Cursor
  | [], here => ⟨[], here⟩
  | c :: rest, here =>
    if c = '\n' then
      if inline then ⟨c :: rest, here⟩ else triviaFrom inline false rest (here.after c)
    else if inComment || Text.isBlank c then
      triviaFrom inline inComment rest (here.after c)
    else if c = ';' then
      triviaFrom inline true rest (here.after c)
    else
      ⟨c :: rest, here⟩

/-- Behind blanks, line feeds and comments. -/
def skipTrivia (cur : Cursor) : Cursor :=
  triviaFrom false false cur.rest cur.position

/-- Behind blanks and a comment, up to the end of the line. -/
def skipInline (cur : Cursor) : Cursor :=
  triviaFrom true false cur.rest cur.position

/-- Whether the text or the line ends here. -/
def atLineEnd (cur : Cursor) : Bool :=
  match cur.peek? with
  | none => true
  | some c => c == '\n'

end Cursor

end StackAsm
