/-
Writing binary files. An encoder answers bytes and adds the texts it
names to a heap; the heap keeps what was added before a failure.
-/
import StackAsm.Bytes.Fault
import StackAsm.Bytes.LittleEndian
import StackAsm.Bytes.StringHeap

namespace StackAsm

abbrev Encode := EStateM FormatFault StringHeap

namespace Encode

/-- A two-byte count. -/
def count16 (count : Nat) (context : String) : Except FormatFault (List UInt8) :=
  if count < UInt16.size then .ok (littleEndian 2 count) else .error (.countOutOfRange context)

/-- A four-byte count. -/
def count32 (count : Nat) (context : String) : Except FormatFault (List UInt8) :=
  if count < UInt32.size then .ok (littleEndian 4 count) else .error (.countOutOfRange context)

/-- A text with its length in front. -/
def string (chunk text : String) : Except FormatFault (List UInt8) := do
  let bytes := text.toUTF8.data.toList
  let count ← count32 bytes.length (chunk ++ " string length exceeds u32")
  return count ++ bytes

/-- A heap: a count and that many texts. -/
def heap (heap : StringHeap) : Except FormatFault (List UInt8) := do
  let count ← count32 heap.size "string heap entries"
  let texts ← heap.entries.toList.mapM (string "string heap")
  return count ++ texts.flatten

/-- The heap index of a text. -/
def heapString (text : String) : Encode (List UInt8) :=
  modifyGet fun heap =>
    let (index, heap) := heap.intern text
    (bytes32 index, heap)

/-- The heap index of a text that may be absent. -/
def heapString? (text : Option String) : Encode (List UInt8) :=
  modifyGet fun heap =>
    let (index, heap) := heap.internOption text
    (bytes32 index, heap)

/-- Take the answer of a step that needs no heap. -/
def lift {α : Type} : Except FormatFault α → Encode α
  | .ok value => return value
  | .error fault => throw fault

/-- Write each of several items. -/
def all {α : Type} (items : List α) (write : α → Encode (List UInt8)) : Encode (List UInt8) := do
  return (← items.mapM write).flatten

end Encode

end StackAsm
