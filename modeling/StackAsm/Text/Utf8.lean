/-
Text from bytes that need not be well formed. A character is a lead byte
and as many tail bytes as the lead byte asks for. Where a character breaks
off, the bytes that began one are read together as one replacement
character, and reading goes on at the byte that did not fit; a byte that
begins no character is replaced on its own.
-/

namespace StackAsm.Utf8

/-- What a lead byte says of its character. -/
structure Lead where
  /-- The bits of the character that the lead byte holds. -/
  bits : Nat
  /-- The ranges the tail bytes lie in. -/
  tail : List (UInt8 × UInt8)
deriving DecidableEq, Repr

/-- Any tail byte. -/
def anyTail : UInt8 × UInt8 := (0x80, 0xBF)

/-- The lead byte `b`, if a character can begin with it. The first tail
byte is held to a narrower range where a shorter spelling, a surrogate or
a number past the last character would come of it. -/
def lead? (b : UInt8) : Option Lead :=
  if b < 0x80 then some ⟨b.toNat, []⟩
  else if b < 0xC2 then none
  else if b < 0xE0 then some ⟨b.toNat - 0xC0, [anyTail]⟩
  else if b < 0xF0 then
    let first := if b = 0xE0 then (0xA0, 0xBF) else if b = 0xED then (0x80, 0x9F) else anyTail
    some ⟨b.toNat - 0xE0, [first, anyTail]⟩
  else if b < 0xF5 then
    let first := if b = 0xF0 then (0x90, 0xBF) else if b = 0xF4 then (0x80, 0x8F) else anyTail
    some ⟨b.toNat - 0xF0, [first, anyTail, anyTail]⟩
  else none

/-- The bytes at the front that lie in the ranges, one in each. -/
def takeTail : List (UInt8 × UInt8) → List UInt8 → List UInt8
  | (low, high) :: ranges, b :: rest =>
    if low ≤ b ∧ b ≤ high then b :: takeTail ranges rest else []
  | _, _ => []

/-- What is read where a character breaks off. -/
def replacement : Char := '\uFFFD'

/-- The character of a lead byte and its tail bytes. -/
def Lead.char (lead : Lead) (tail : List UInt8) : Char :=
  if tail.length = lead.tail.length then
    Char.ofNat (tail.foldl (fun n b => n * 64 + (b.toNat - 0x80)) lead.bits)
  else replacement

/-- Read bytes behind the characters `done`, which are last first. -/
def decodeOnto (done : List Char) : List UInt8 → List Char
  | [] => done.reverse
  | b :: rest =>
    match lead? b with
    | none => decodeOnto (replacement :: done) rest
    | some lead =>
      let tail := takeTail lead.tail rest
      decodeOnto (lead.char tail :: done) (rest.drop tail.length)
termination_by bytes => bytes.length

/-- The text of any bytes. -/
def decodeLossy (bytes : List UInt8) : List Char := decodeOnto [] bytes

end StackAsm.Utf8
