/-
Reading binary files. A decoder takes bytes from the front of its input
and fails with a fault that names the chunk being read; the input stays
where reading stopped.
-/
import StackAsm.Bytes.Fault
import StackAsm.Bytes.LittleEndian
import StackAsm.Bytes.StringHeap

namespace StackAsm

/-- Bytes being read. -/
structure ByteInput where
  /-- What is being read. -/
  chunk : String
  rest : List UInt8
  /-- How many bytes were read before. -/
  position : Nat := 0
deriving DecidableEq, Repr

abbrev Decode := EStateM FormatFault ByteInput

/-- The first `n` items and the rest, if there are that many. -/
def splitExactly {α : Type} (n : Nat) (items : List α) : Option (List α × List α) :=
  let taken := items.take n
  if taken.length = n then some (taken, items.drop n) else none

/-- Whether there are fewer than `n` items; no more than `n` of them are
looked at. -/
def isShorter {α : Type} (items : List α) (n : Nat) : Bool := (items.take n).length < n

theorem isShorter_eq {α : Type} (items : List α) (n : Nat) :
    isShorter items n = decide (items.length < n) := by
  simp only [isShorter, List.length_take, decide_eq_decide]
  omega

namespace Decode

variable {α : Type}

/-- Fail because the chunk breaks a rule. -/
def invalid (detail : FormatDetail) : Decode α := do
  throw (.invalid (← get).chunk detail)

/-- The last position a reader can reach: no list of bytes in memory is
longer. -/
def lastPosition : Nat := UInt64.size / 2 - 1

/-- The next `count` bytes; `what` names them. Where they are missing and
would end past the last position a file can have, their number itself is
at fault. -/
def exact (count : Nat) (what : String) : Decode (List UInt8) := do
  let input ← get
  match splitExactly count input.rest with
  | some (taken, rest) =>
    set { input with rest, position := input.position + count }
    return taken
  | none =>
    if min input.position lastPosition + count ≥ UInt64.size then invalid (.overflow what)
    else throw (.endOfInput (input.chunk ++ " " ++ what))

-- ==== numbers

def byte : Decode UInt8 := return UInt8.ofNat (ofLittleEndian (← exact 1 "u8"))

def word16 : Decode UInt16 := return UInt16.ofNat (ofLittleEndian (← exact 2 "u16"))

def word32 : Decode UInt32 := return UInt32.ofNat (ofLittleEndian (← exact 4 "u32"))

def word64 : Decode UInt64 := return UInt64.ofNat (ofLittleEndian (← exact 8 "u64"))

-- ==== texts

/-- A text with its length in front. -/
def string : Decode String := do
  let count ← word32
  let bytes ← exact count.toNat "string bytes"
  match String.fromUTF8? ⟨bytes.toArray⟩ with
  | some text => return text
  | none => throw (.invalidText (← get).chunk)

/-- The text at an index of the heap. -/
def heapText (heap : StringHeap) (index : UInt32) : Decode String :=
  match heap.get? index with
  | some text => return text
  | none => throw (.heapIndex index heap.size)

/-- A text by its heap index. -/
def heapString (heap : StringHeap) : Decode String := do
  heapText heap (← word32)

/-- A text by its heap index, or none. -/
def heapString? (heap : StringHeap) : Decode (Option String) := do
  let index ← word32
  if index = StringHeap.noString then return none else return some (← heapText heap index)

-- ==== counts

/-- Refuse a count that is over the limit, or whose records of at least
`size` bytes each cannot all be there. -/
def checkCount (count size : Nat) (what : String) : Decode Nat := do
  if count > countLimit then invalid (.tooMany what count)
  else
    let input ← get
    let needed := min (count * size) (UInt64.size - 1)
    if isShorter input.rest needed then
      throw (.endOfInput (input.chunk ++ " " ++ what ++ ": " ++ toString count
        ++ " entries need " ++ toString needed ++ " bytes, "
        ++ toString input.rest.length ++ " remain"))
    else return count

/-- A four-byte count of records. -/
def count32 (size : Nat) (what : String) : Decode Nat := do
  checkCount (← word32).toNat size what

/-- A two-byte count of records. -/
def count16 (size : Nat) (what : String) : Decode Nat := do
  checkCount (← word16).toNat size what

/-- Read `count` times; the reader is told how often it ran before. -/
def times (count : Nat) (read : Nat → Decode α) : Decode (List α) :=
  (List.range count).mapM read

/-- A heap: a count and that many texts. -/
def heap : Decode StringHeap := do
  let count ← count32 4 "string heap"
  return StringHeap.ofEntries (← times count fun _ => string)

/-- Nothing may be left. -/
def finish : Decode Unit := do
  if (← get).rest.isEmpty then return () else invalid .trailingBytes

end Decode

end StackAsm
