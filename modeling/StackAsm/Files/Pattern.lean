/-
File patterns. In a pattern `?` stands for any character, `*` for any
run of characters, a bracket for one character inside or outside a
class, and `**`, alone between slashes, for any chain of directories.

A pattern is read twice. As a whole it must be well formed; then each
piece between slashes is read by itself, so a bracket cannot hold a
slash.
-/
import StackAsm.Files.Path

namespace StackAsm

/-- A piece of a character class. -/
inductive ClassPiece where
  | single (c : Char)
  | range (low high : Char)
deriving DecidableEq, Repr

def ClassPiece.contains (c : Char) : ClassPiece → Bool
  | .single d => c == d
  | .range low high => low ≤ c && c ≤ high

inductive Wildcard where
  | char (c : Char)
  | anyChar
  | anyText
  | anyDepth
  | inside (pieces : List ClassPiece)
  | outside (pieces : List ClassPiece)
deriving DecidableEq, Repr

inductive PatternError where
  /-- More than two stars in a row. -/
  | tooManyStars
  /-- Two stars that are not alone between slashes. -/
  | crowdedStars
  | badClass
deriving DecidableEq, Repr

/-- What is wrong with a pattern, and at which character. -/
structure PatternFault where
  error : PatternError
  position : Nat
deriving DecidableEq, Repr

def PatternError.message : PatternError → String
  | .tooManyStars => "wildcards are either regular `*` or recursive `**`"
  | .crowdedStars => "recursive wildcards must form a single path component"
  | .badClass => "invalid range pattern"

def PatternFault.message (fault : PatternFault) : String :=
  "Pattern syntax error near position " ++ toString fault.position ++ ": "
    ++ fault.error.message

-- ==== reading

namespace Wildcard

/-- The pieces of the text of a character class. -/
def classPieces : List Char → List ClassPiece
  | low :: '-' :: high :: rest => .range low high :: classPieces rest
  | c :: rest => .single c :: classPieces rest
  | [] => []

/-- Split a class from what follows its closing bracket. The first
character belongs to the class even if it is a bracket. -/
def splitClass? : List Char → Option (List Char × List Char)
  | [] => none
  | first :: rest =>
    match rest.span (· != ']') with
    | (_, []) => none
    | (more, _ :: after) => some (first :: more, after)

/-- A wildcard in front of a text: how many characters it takes, the last
of them, and what follows. -/
structure Front where
  wildcard : Wildcard
  size : Nat
  last : Char
  rest : List Char

/-- A class, from behind its opening bracket. -/
def readClass? : List Char → Option Front
  | '!' :: text =>
    (splitClass? text).map fun (inner, rest) =>
      ⟨.outside (classPieces inner), inner.length + 3, ']', rest⟩
  | text =>
    (splitClass? text).map fun (inner, rest) =>
      ⟨.inside (classPieces inner), inner.length + 2, ']', rest⟩

/-- Stars at `position`, with `before` in front of them. A slash behind
two stars belongs to them. -/
def readStars (before : Option Char) (position : Nat) (text : List Char) :
    Except PatternFault Front :=
  match (text.takeWhile (· == '*')).length, text.dropWhile (· == '*') with
  | 0, after | 1, after => .ok ⟨.anyText, 1, '*', after⟩
  | 2, after =>
    if before.all (· == '/') then
      match after with
      | [] => .ok ⟨.anyDepth, 2, '*', []⟩
      | '/' :: rest => .ok ⟨.anyDepth, 3, '/', rest⟩
      | _ => .error ⟨.crowdedStars, position + 2⟩
    else .error ⟨.crowdedStars, position - 1⟩
  | _, _ => .error ⟨.tooManyStars, position + 2⟩

/-- The wildcard in front of a text. -/
def read (before : Option Char) (position : Nat) (c : Char) (rest : List Char) :
    Except PatternFault Front :=
  if c = '?' then .ok ⟨.anyChar, 1, c, rest⟩
  else if c = '*' then readStars before position (c :: rest)
  else if c = '[' then
    match readClass? rest with
    | some found => .ok found
    | none => .error ⟨.badClass, position⟩
  else .ok ⟨.char c, 1, c, rest⟩

/-- The wildcards of the rest of a pattern. Each takes a character at
least, so the length of the text is fuel enough. -/
def readAll : Nat → Option Char → Nat → List Char → Except PatternFault (List Wildcard)
  | fuel + 1, before, position, c :: rest => do
    let front ← read before position c rest
    return front.wildcard
      :: (← readAll fuel (some front.last) (position + front.size) front.rest)
  | _, _, _, _ => .ok []

def ofText (text : List Char) : Except PatternFault (List Wildcard) :=
  readAll text.length none 0 text

/-- The character that a wildcard is, if it is one. -/
def plain? : Wildcard → Option Char
  | .char c => some c
  | _ => none

-- ==== matching

/-- Whether a wildcard that stands for one character stands for `c`. -/
def accepts (c : Char) : Wildcard → Bool
  | .char d => c == d
  | .anyChar => true
  | .inside pieces => pieces.any (ClassPiece.contains c)
  | .outside pieces => !pieces.any (ClassPiece.contains c)
  | .anyText | .anyDepth => false

/-- For each tail of the wildcards, the longest first, whether it stands
for no text at all. -/
def emptyRow : List Wildcard → List Bool
  | [] => [true]
  | wildcard :: rest =>
    let row := emptyRow rest
    (wildcard == .anyText && row.headD false) :: row

/-- The row of a text with `c` in front, from the row of the text. -/
def stepRow (c : Char) : List Wildcard → List Bool → List Bool
  | [], _ => [false]
  | wildcard :: rest, row =>
    let next := stepRow c rest row.tail
    (if wildcard = .anyText then next.headD false || row.headD false
      else wildcard.accepts c && row.tail.headD false) :: next

/-- For each tail of the wildcards, whether it stands for the text. -/
def textRow (wildcards : List Wildcard) (text : List Char) : List Bool :=
  text.foldr (fun c row => stepRow c wildcards row) (emptyRow wildcards)

/-- Whether wildcards stand for a whole name. -/
def covers (wildcards : List Wildcard) (text : List Char) : Bool :=
  (textRow wildcards text).headD false

theorem tail_textRow (wildcard : Wildcard) (rest : List Wildcard) (text : List Char) :
    (textRow (wildcard :: rest) text).tail = textRow rest text := by
  induction text with
  | nil => rfl
  | cons c text ih =>
    simp only [textRow, List.foldr_cons, stepRow, List.tail_cons] at ih ⊢
    rw [ih]

theorem covers_nil (text : List Char) : covers [] text = text.isEmpty := by
  cases text <;> rfl

theorem covers_empty (wildcard : Wildcard) (rest : List Wildcard) :
    covers (wildcard :: rest) [] = (wildcard == .anyText && covers rest []) :=
  rfl

/-- A star stands for nothing, or for one character more. -/
theorem covers_anyText (rest : List Wildcard) (c : Char) (text : List Char) :
    covers (.anyText :: rest) (c :: text) =
      (covers rest (c :: text) || covers (.anyText :: rest) text) := by
  simp only [covers, ← tail_textRow .anyText rest]
  simp [textRow, stepRow]

/-- Any other wildcard stands for one character. -/
theorem covers_cons {wildcard : Wildcard} (single : wildcard ≠ .anyText) (rest : List Wildcard)
    (c : Char) (text : List Char) :
    covers (wildcard :: rest) (c :: text) = (wildcard.accepts c && covers rest text) := by
  simp only [covers, ← tail_textRow wildcard rest]
  simp [textRow, stepRow, single]

end Wildcard

-- ==== patterns

/-- What a pattern has between two slashes. -/
inductive PatternPart where
  | literal (name : String)
  | anyDepth
  | wild (wildcards : List Wildcard)
deriving DecidableEq, Repr

namespace PatternPart

/-- The text of wildcards that are all plain characters. -/
def literal? (wildcards : List Wildcard) : Option String :=
  (wildcards.mapM Wildcard.plain?).map String.ofList

def ofText (text : List Char) : Except PatternFault PatternPart := do
  let wildcards ← Wildcard.ofText text
  if wildcards.contains .anyDepth then return .anyDepth
  else
    match literal? wildcards with
    | some name => return .literal name
    | none => return .wild wildcards

def accepts (name : String) : PatternPart → Bool
  | .literal text => name == text
  | .anyDepth => false
  | .wild wildcards => Wildcard.covers wildcards name.toList

end PatternPart

structure FilePattern where
  /-- Whether the pattern starts from the root. -/
  absolute : Bool
  parts : List PatternPart
  /-- Whether the pattern ends in a slash, and so stands for directories
  only. -/
  directories : Bool
deriving DecidableEq, Repr

namespace FilePattern

/-- Whether a path is to be taken for a pattern. -/
def isPattern (text : String) : Bool :=
  text.toList.any fun c => c == '*' || c == '?' || c == '['

/-- Merge the chains of directories that follow one another. -/
def merge : List PatternPart → List PatternPart
  | .anyDepth :: .anyDepth :: rest => merge (.anyDepth :: rest)
  | part :: rest => part :: merge rest
  | [] => []

/-- The pieces between slashes; a slash at the end has no piece behind
it. -/
def pieces (text : List Char) : List (List Char) :=
  let all := text.splitOn '/'
  if all.getLast? = some [] then all.dropLast else all

def ofText (text : String) : Except PatternFault FilePattern := do
  let _ ← Wildcard.ofText text.toList
  let absolute := Path.isAbsolute text
  let rest := if absolute then text.toList.drop 1 else text.toList
  let parts ← (pieces rest).mapM PatternPart.ofText
  return ⟨absolute, merge parts, text.toList.getLast? == some '/'⟩

end FilePattern

end StackAsm
