/-
Blocks and labels, found without parsing. Outside comments and quoted
text a brace opens or closes a block. `Region` says which of these the
next character belongs to; every region ends with its line.

A line that failed to parse is passed with `restOfLine`, which hands
back its braces so that the block structure stays in step. The labels of
a method body are collected in advance with `labelsAhead`.
-/
import StackAsm.Source.Scan

namespace StackAsm

/-- What kind of text a character stands in. -/
inductive Region where
  | code
  | comment
  /-- Between two `quote` characters. -/
  | quoted (quote : Char)
  /-- Behind a backslash between two `quote` characters. -/
  | escaped (quote : Char)
deriving DecidableEq, Repr

/-- The region behind `c` when `c` stands in this one. -/
def Region.after (region : Region) (c : Char) : Region :=
  if c = '\n' then .code
  else
    match region with
    | .code =>
      if c = ';' then .comment
      else if c = '"' ∨ c = '\'' then .quoted c
      else .code
    | .comment => .comment
    | .quoted quote =>
      if c = '\\' then .escaped quote
      else if c = quote then .code
      else .quoted quote
    | .escaped quote => .quoted quote

/-- An opening or closing brace. -/
inductive Brace where
  | opening
  | closing
deriving DecidableEq, Repr

/-- The brace `c` is when it stands in `region`. -/
def Brace.of? (region : Region) (c : Char) : Option Brace :=
  if region = .code then
    if c = '\x7b' then some .opening
    else if c = '\x7d' then some .closing
    else none
  else none

namespace Cursor

/-- Behind the end of the line, with the braces on the way. -/
def restOfLineFrom (region : Region) : List Char → Position → List Brace × Cursor
  | [], here => ([], ⟨[], here⟩)
  | c :: rest, here =>
    if c = '\n' then ([], ⟨rest, here.after c⟩)
    else
      let (braces, cur) := restOfLineFrom (region.after c) rest (here.after c)
      ((Brace.of? region c).toList ++ braces, cur)

/-- Pass the rest of the line and its line feed. -/
def restOfLine (cur : Cursor) : List Brace × Cursor :=
  restOfLineFrom .code cur.rest cur.position

end Cursor

/-- A search for labels: the region of the next character, whether it
stands inside a word whose start was seen, how many blocks were opened
on the way, and the labels found with their lines. -/
structure LabelSearch where
  region : Region
  inWord : Bool
  depth : Nat
  found : List (String × Nat)
deriving DecidableEq, Repr

namespace LabelSearch

/-- Note the word starting with `c` if it is a label of the outermost
block; only the first place of a name counts. -/
def note (search : LabelSearch) (c : Char) (rest : List Char) (line : Nat) : LabelSearch :=
  let name := String.ofList (c :: rest.takeWhile Cursor.isWordChar)
  if search.depth = 0 ∧ Cursor.marksLabel (rest.dropWhile Cursor.isWordChar)
      ∧ !search.found.any (fun label => label.1 == name) then
    { search with found := search.found ++ [(name, line)] }
  else search

/-- Pass `c`, which stands on `line` with `rest` behind it; `none` at
the brace that closes the outermost block. -/
def step (search : LabelSearch) (c : Char) (rest : List Char) (line : Nat) :
    Option LabelSearch :=
  let region := search.region.after c
  match Brace.of? search.region c with
  | some .opening => some { search with region, inWord := false, depth := search.depth + 1 }
  | some .closing =>
    if search.depth = 0 then none
    else some { search with region, inWord := false, depth := search.depth - 1 }
  | none =>
    if search.region = .code ∧ search.inWord ∧ Cursor.isWordChar c then
      some { search with region }
    else if search.region = .code ∧ Cursor.isWordStart c then
      some { search.note c rest line with region, inWord := true }
    else
      some { search with region, inWord := false }

/-- The labels found by the end of the outermost block. -/
def run (search : LabelSearch) : List Char → Position → List (String × Nat)
  | [], _ => search.found
  | c :: rest, here =>
    match search.step c rest here.line with
    | none => search.found
    | some next => next.run rest (here.after c)

end LabelSearch

/-- The labels declared directly in the block whose opening brace was
just passed, each with its line. -/
def Cursor.labelsAhead (cur : Cursor) : List (String × Nat) :=
  LabelSearch.run ⟨.code, false, 0, []⟩ cur.rest cur.position

end StackAsm
