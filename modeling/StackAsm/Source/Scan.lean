/-
Scan steps. A scan step reads from a cursor and answers a value or a
fault; either way it leaves the cursor where reading stopped. Faults say
what was wrong, and an error adds where.

Words, dotted names, type names and single characters are read here.
Each reader first passes blanks and comments.
-/
import StackAsm.Source.Cursor

namespace StackAsm

/-- What a reader was looking for. -/
inductive Wanted where
  | char (c : Char)
  | identifier
  | literal
  | stringLiteral
deriving DecidableEq, Repr

/-- Why a piece of source text cannot be read. -/
inductive ScanFault where
  /-- Something else, or nothing, stands where `wanted` must. -/
  | expected (wanted : Wanted) (found : Option Char)
  | tooManyDimensions
  | unterminatedString
  | malformedChar
  | unterminatedChar
  | unknownEscape (escaped : Char)
  | unterminatedEscape
  | malformedNumber
  | missingDigits
  | malformedFloat
  | integerOutOfRange
deriving DecidableEq, Repr

/-- A fault and where it was found. -/
structure ScanError where
  fault : ScanFault
  position : Position
deriving DecidableEq, Repr

namespace Wanted

def describe : Wanted → String
  | .char c => "'" ++ String.singleton c ++ "'"
  | .identifier => "identifier"
  | .literal => "literal"
  | .stringLiteral => "string literal"

end Wanted

namespace ScanFault

def message : ScanFault → String
  | .expected wanted (some c) =>
    "Expected " ++ wanted.describe ++ ", found '" ++ String.singleton c ++ "'"
  | .expected wanted none => "Expected " ++ wanted.describe ++ ", found end of file"
  | .tooManyDimensions => "Too many array dimensions"
  | .unterminatedString => "Unterminated string literal"
  | .malformedChar => "Malformed character literal"
  | .unterminatedChar => "Unterminated character literal"
  | .unknownEscape c => "Unknown escape sequence '\\" ++ String.singleton c ++ "'"
  | .unterminatedEscape => "Unterminated escape sequence"
  | .malformedNumber => "Malformed numeric literal"
  | .missingDigits => "Missing digits in numeric literal"
  | .malformedFloat => "Malformed float literal"
  | .integerOutOfRange => "Integer literal out of range"

/-- Whether the fault is about grammar, not about the characters of one
token. -/
def isGrammatical : ScanFault → Bool
  | .expected _ _ => true
  | _ => false

end ScanFault

def ScanError.message (error : ScanError) : String :=
  error.position.locate error.fault.message

/-- A reader over a source cursor; the cursor survives a failure. -/
abbrev Scan := EStateM ScanError Cursor

-- ==== single characters

namespace Scan

def skipTrivia : Scan Unit := modify Cursor.skipTrivia

def skipInline : Scan Unit := modify Cursor.skipInline

/-- Fail at the cursor. -/
def fail {α : Type} (fault : ScanFault) : Scan α := do
  throw ⟨fault, (← get).position⟩

/-- Fail at the cursor, naming what stands there. -/
def failExpecting {α : Type} (wanted : Wanted) : Scan α := do
  fail (.expected wanted (← get).peek?)

/-- Pass `c` if it comes next. -/
def eat (c : Char) : Scan Bool := do
  skipTrivia
  if (← get).peek? = some c then
    modify Cursor.advance
    return true
  else
    return false

/-- Pass `text` if it comes next. -/
def eatText (text : List Char) : Scan Bool := do
  skipTrivia
  if (← get).startsWith text then
    modify (Cursor.drop text.length)
    return true
  else
    return false

/-- Pass `c`, which must come next. -/
def expect (c : Char) : Scan Unit := do
  if ← eat c then return () else failExpecting (.char c)

/-- Whether nothing but blanks and a comment stands before the end of
the line; passes them. -/
def atLineEnd : Scan Bool := do
  skipInline
  return (← get).atLineEnd

end Scan

-- ==== words

namespace Cursor

def isWordStart (c : Char) : Bool := c.isAlpha || c == '_'

def isWordChar (c : Char) : Bool := c.isAlphanum || c == '_'

/-- The word that stands at the front of `text`. -/
def leadingWord? : List Char → Option (List Char)
  | [] => none
  | c :: rest => if isWordStart c then some (c :: rest.takeWhile isWordChar) else none

/-- The word right at the cursor. -/
def word? (cur : Cursor) : Option (List Char) := leadingWord? cur.rest

/-- Whether `after`, the text behind a word, makes that word a label:
one colon follows, not two. -/
def marksLabel : List Char → Bool
  | ':' :: ':' :: _ => false
  | ':' :: _ => true
  | _ => false

/-- Whether a label declaration `NAME:` stands right at the cursor. -/
def atLabel (cur : Cursor) : Bool :=
  match cur.word? with
  | some word => marksLabel (cur.rest.drop word.length)
  | none => false

/-- The rest of a dotted name: word characters, and dots with a word
behind them. -/
def dottedTail : List Char → List Char
  | [] => []
  | c :: rest =>
    if isWordChar c then c :: dottedTail rest
    else if c = '.' then
      match rest with
      | [] => []
      | d :: _ => if isWordStart d then c :: dottedTail rest else []
    else []

/-- How many pairs of brackets stand at the front. -/
def bracketPairs : List Char → Nat
  | '[' :: ']' :: rest => bracketPairs rest + 1
  | _ => 0

end Cursor

namespace Scan

/-- A word. -/
def word : Scan String := do
  skipTrivia
  match (← get).word? with
  | some text =>
    modify (Cursor.drop text.length)
    return String.ofList text
  | none => failExpecting .identifier

/-- Words joined by dots, such as `App.Core.Main`. -/
def dotted : Scan String := do
  skipTrivia
  match (← get).rest with
  | [] => failExpecting .identifier
  | c :: rest =>
    if Cursor.isWordStart c then
      let text := c :: Cursor.dottedTail rest
      modify (Cursor.drop text.length)
      return String.ofList text
    else
      failExpecting .identifier

/-- The bracket pairs of an array type; at most 255 are allowed. -/
def dimensions : Scan UInt8 := do
  let pairs := Cursor.bracketPairs (← get).rest
  if pairs < 256 then
    modify (Cursor.drop (2 * pairs))
    return UInt8.ofNat pairs
  else
    modify (Cursor.drop 512)
    fail .tooManyDimensions

/-- A dotted name and its array dimensions. -/
def typeName : Scan (String × UInt8) := do
  let name ← dotted
  let dims ← dimensions
  return (name, dims)

end Scan

end StackAsm
