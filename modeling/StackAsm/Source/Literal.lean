/-
Literals: integers in three radixes, decimal floats, strings, characters,
truth values and `null`.

A number is an optional sign, an optional radix mark and digits that may
be parted by underscores. In radix ten a point with a digit behind it,
or an exponent, makes the literal a float. An integer is exact over the
whole signed 64-bit range and refused outside it.
-/
import StackAsm.Source.Scan
import StackAsm.Number.Binary64

namespace StackAsm

/-- A literal value as written. -/
inductive Literal where
  | int (value : Int64)
  | float (value : Binary64)
  | str (text : String)
  | char (c : Char)
  | bool (value : Bool)
  | null
deriving DecidableEq, Repr

-- ==== escapes

/-- The character a backslash and `c` stand for. -/
def escapeValue? (c : Char) : Option Char :=
  match c with
  | '\\' => some '\\'
  | '\'' => some '\''
  | '"' => some '"'
  | '0' => some '\x00'
  | 'a' => some '\x07'
  | 'b' => some '\x08'
  | 'f' => some '\x0c'
  | 'n' => some '\n'
  | 'r' => some '\r'
  | 't' => some '\t'
  | 'v' => some '\x0b'
  | _ => none

/-- The rest of a string literal whose opening quote stood at `opening`.
An unknown escape is reported where its character stands. -/
def stringBody (opening : Position) :
    List Char → Position → EStateM.Result ScanError Cursor (List Char)
  | [], here => .error ⟨.unterminatedString, opening⟩ ⟨[], here⟩
  | '\\' :: [], here =>
    let behind := here.after '\\'
    .error ⟨.unterminatedEscape, behind⟩ ⟨[], behind⟩
  | '\\' :: c :: rest, here =>
    let behind := here.after '\\'
    match escapeValue? c with
    | some value =>
      match stringBody opening rest (behind.after c) with
      | .ok text cur => .ok (value :: text) cur
      | .error error cur => .error error cur
    | none => .error ⟨.unknownEscape c, behind⟩ ⟨rest, behind.after c⟩
  | c :: rest, here =>
    let behind := here.after c
    if c = '\n' then .error ⟨.unterminatedString, opening⟩ ⟨rest, behind⟩
    else if c = '"' then .ok [] ⟨rest, behind⟩
    else
      match stringBody opening rest behind with
      | .ok text cur => .ok (c :: text) cur
      | .error error cur => .error error cur

namespace Scan

/-- The character behind a backslash already passed. -/
def escape : Scan Char := do
  let here := (← get).position
  match (← get).peek? with
  | none => throw ⟨.unterminatedEscape, here⟩
  | some c =>
    modify Cursor.advance
    match escapeValue? c with
    | some value => return value
    | none => throw ⟨.unknownEscape c, here⟩

/-- A string literal. -/
def string : Scan String := do
  skipTrivia
  let cur ← get
  if cur.peek? = some '"' then
    let behind := cur.advance
    let text ← fun _ => stringBody cur.position behind.rest behind.position
    return String.ofList text
  else
    failExpecting .stringLiteral

/-- A character literal; the cursor is on its opening quote. -/
def charLiteral : Scan Char := do
  let opening := (← get).position
  modify Cursor.advance
  let next := (← get).peek?
  modify Cursor.advance
  let value ←
    match next with
    | none => throw ⟨.malformedChar, opening⟩
    | some c =>
      if c = '\n' ∨ c = '\'' then throw ⟨.malformedChar, opening⟩
      else if c = '\\' then escape
      else pure c
  let closing := (← get).peek?
  modify Cursor.advance
  if closing = some '\'' then return value
  else throw ⟨.unterminatedChar, opening⟩

end Scan

-- ==== numbers

/-- The radix of an integer literal. -/
inductive Radix where
  | binary
  | decimal
  | hexadecimal
deriving DecidableEq, Repr

namespace Radix

def base : Radix → Nat
  | .binary => 2
  | .decimal => 10
  | .hexadecimal => 16

/-- The value of `c` as a digit, whatever the radix. -/
def digitValue (c : Char) : Nat :=
  if '0' ≤ c ∧ c ≤ '9' then c.toNat - '0'.toNat
  else if 'a' ≤ c ∧ c ≤ 'f' then c.toNat - 'a'.toNat + 10
  else if 'A' ≤ c ∧ c ≤ 'F' then c.toNat - 'A'.toNat + 10
  else 16

def isDigit (radix : Radix) (c : Char) : Bool :=
  digitValue c < radix.base

/-- The radix mark at the front of `text`. -/
def ofMark : List Char → Radix
  | '0' :: 'x' :: _ => .hexadecimal
  | '0' :: 'X' :: _ => .hexadecimal
  | '0' :: 'b' :: _ => .binary
  | '0' :: 'B' :: _ => .binary
  | _ => .decimal

/-- How many characters the radix mark takes. -/
def markLength : Radix → Nat
  | .decimal => 0
  | _ => 2

/-- The value of a row of digits, read from left to right. -/
def rowValue (radix : Radix) (digits : List Char) : Nat :=
  digits.foldl (fun n c => n * radix.base + digitValue c) 0

/-- Rows no longer than this are read from left to right. -/
def shortRow : Nat := 32

/-- The value of a row of digits, which is halved as long as it is long,
at most `depth` times. -/
def valueByHalves (radix : Radix) : Nat → List Char → Nat
  | 0, digits => radix.rowValue digits
  | depth + 1, digits =>
    let width := digits.length
    if width ≤ shortRow then radix.rowValue digits
    else
      let half := width / 2
      radix.valueByHalves depth (digits.take half) * Nat.pow radix.base (width - half)
        + radix.valueByHalves depth (digits.drop half)

/-- The value of a row of digits. -/
def value (radix : Radix) (digits : List Char) : Nat :=
  radix.valueByHalves digits.length digits

/-- Reading on from `n` shifts `n` by the digits that are read. -/
theorem foldl_digits (radix : Radix) (digits : List Char) (n : Nat) :
    digits.foldl (fun n c => n * radix.base + digitValue c) n
      = n * Nat.pow radix.base digits.length + radix.rowValue digits := by
  unfold rowValue
  induction digits generalizing n with
  | nil => simp
  | cons c rest ih =>
    simp only [List.foldl_cons, List.length_cons, Nat.zero_mul, Nat.zero_add]
    rw [ih, ih (digitValue c), Nat.pow_eq, Nat.pow_eq, Nat.pow_succ, Nat.add_mul, Nat.mul_assoc,
      Nat.mul_comm radix.base, Nat.add_assoc]

theorem rowValue_append (radix : Radix) (front back : List Char) :
    radix.rowValue (front ++ back)
      = radix.rowValue front * Nat.pow radix.base back.length + radix.rowValue back := by
  rw [rowValue, List.foldl_append, foldl_digits, ← rowValue]

/-- Halving a row does not change its value. -/
theorem value_eq_rowValue (radix : Radix) (digits : List Char) :
    radix.value digits = radix.rowValue digits := by
  suffices halves : ∀ depth digits, radix.valueByHalves depth digits = radix.rowValue digits from
    halves digits.length digits
  intro depth
  induction depth with
  | zero => intro digits; rfl
  | succ depth ih =>
    intro digits
    simp only [valueByHalves, ih]
    split
    · rfl
    · rw [← List.length_drop, ← rowValue_append, List.take_append_drop]

end Radix

/-- A numeric literal taken apart. -/
structure Numeral where
  negative : Bool
  radix : Radix
  /-- Digits and underscores before any point. -/
  whole : List Char
  /-- Digits behind the point. -/
  fraction : List Char
  /-- Sign and digits of the power of ten. -/
  exponent : Option (Bool × List Char)
  /-- How many characters the literal takes. -/
  length : Nat
deriving Repr

namespace Numeral

/-- The digits behind a point, if a point and a digit come next. -/
def fractionOf : List Char → List Char
  | '.' :: c :: rest => if c.isDigit then c :: rest.takeWhile Char.isDigit else []
  | _ => []

/-- The exponent at the front of `text`, with its length. -/
def exponentOf : List Char → Option (Bool × List Char × Nat)
  | mark :: c :: rest =>
    if mark = 'e' ∨ mark = 'E' then
      if c.isDigit then
        let digits := c :: rest.takeWhile Char.isDigit
        some (false, digits, digits.length + 1)
      else if c = '-' ∨ c = '+' then
        let digits := rest.takeWhile Char.isDigit
        if digits.isEmpty then none else some (c == '-', digits, digits.length + 2)
      else none
    else none
  | _ => none

/-- Take apart the number at the front of `text`. -/
def ofText (text : List Char) : Numeral :=
  let signed := text.head? = some '-' || text.head? = some '+'
  let body := if signed then text.drop 1 else text
  let radix := Radix.ofMark body
  let marked := body.drop radix.markLength
  let whole := marked.takeWhile fun c => radix.isDigit c || c == '_'
  let behind := marked.drop whole.length
  let fraction := if radix = .decimal then fractionOf behind else []
  let pointed := if fraction.isEmpty then 0 else fraction.length + 1
  let exponent := if radix = .decimal then exponentOf (behind.drop pointed) else none
  { negative := text.head? = some '-'
    radix
    whole
    fraction
    exponent := exponent.map fun found => (found.1, found.2.1)
    length := (if signed then 1 else 0) + radix.markLength + whole.length + pointed
      + (exponent.map fun found => found.2.2).getD 0 }

def isFloat (n : Numeral) : Bool :=
  !n.fraction.isEmpty || n.exponent.isSome

/-- The power of ten that exponent digits denote. Digits are taken in while
the power fits sixteen bits; those behind are passed over. -/
def powerOf (digits : List Char) : Nat :=
  digits.foldl (fun n c => if n < UInt16.size then n * 10 + Radix.digitValue c else n) 0

/-- The digits before the point, underscores left out. -/
def digits (n : Numeral) : List Char :=
  n.whole.filter (· != '_')

/-- The float a decimal numeral denotes; it needs a digit before or
behind the point. -/
def float? (n : Numeral) : Option Binary64 :=
  let mantissa := n.digits ++ n.fraction
  if mantissa.isEmpty then none
  else
    let power : Int :=
      match n.exponent with
      | none => 0
      | some (down, text) =>
        let size : Int := powerOf text
        if down then -size else size
    let magnitude :=
      Binary64.ofDecimal (Radix.decimal.value mantissa) (power - n.fraction.length)
    some (if n.negative then magnitude.neg else magnitude)

/-- The integer a numeral denotes. -/
def int (n : Numeral) : Int :=
  let magnitude : Int := n.radix.value n.digits
  if n.negative then -magnitude else magnitude

/-- The literal a numeral denotes. -/
def literal (n : Numeral) : Except ScanFault Literal :=
  if n.isFloat then
    match n.float? with
    | some value => .ok (.float value)
    | none => .error .malformedFloat
  else if n.digits.isEmpty then .error .missingDigits
  else if Int64.minValue.toInt ≤ n.int ∧ n.int ≤ Int64.maxValue.toInt then
    .ok (.int (Int64.ofInt n.int))
  else .error .integerOutOfRange

end Numeral

namespace Scan

/-- A numeric literal; no word character may follow it. -/
def number : Scan Literal := do
  let start ← get
  let numeral := Numeral.ofText start.rest
  modify (Cursor.drop numeral.length)
  if (← get).peek?.any Cursor.isWordChar then
    throw ⟨.malformedNumber, start.position⟩
  match numeral.literal with
  | .ok value => return value
  | .error fault => throw ⟨fault, start.position⟩

end Scan

-- ==== any literal

namespace Literal

/-- The literal a keyword stands for. -/
def ofWord? (word : List Char) : Option Literal :=
  if word = "true".toList then some (.bool true)
  else if word = "false".toList then some (.bool false)
  else if word = "null".toList then some .null
  else none

end Literal

namespace Cursor

/-- Whether a literal starts right at the cursor. -/
def atLiteral (cur : Cursor) : Bool :=
  match cur.rest with
  | [] => false
  | c :: rest =>
    if c.isDigit || c == '"' || c == '\'' then true
    else if c == '-' || c == '+' then rest.head?.any Char.isDigit
    else (cur.word?.bind Literal.ofWord?).isSome

end Cursor

namespace Scan

/-- A literal of any kind. -/
def literal : Scan Literal := do
  skipTrivia
  let cur ← get
  match cur.peek? with
  | none => failExpecting .literal
  | some c =>
    if c = '"' then return .str (← string)
    else if c = '\'' then return .char (← charLiteral)
    else if c.isDigit || c == '-' || c == '+' then number
    else
      match cur.word? with
      | none => failExpecting .literal
      | some word =>
        match Literal.ofWord? word with
        | none => failExpecting .literal
        | some value =>
          modify (Cursor.drop word.length)
          return value

end Scan

end StackAsm
