/-
String heaps. Binary files name texts by their index in a heap; equal
texts share the index of their first entry. A heap read from a file may
hold a text twice: the later entry keeps its place, but the first one
answers.

A heap keeps a table of the first entries beside all its entries, so that
finding a text takes no search.
-/
import StackAsm.Table

namespace StackAsm

-- ==== first entries

/-- Note a text and its index, unless the text is known. -/
def noteFirst (known : Table String Nat) (entry : String × Nat) : Table String Nat :=
  if (known.get? entry.1).isSome then known else known.insert entry.1 entry.2

/-- The different texts of a list, each with the index of its first
entry. -/
def firstEntries (entries : List String) : Table String Nat :=
  entries.zipIdx.foldl noteFirst ⟨{}⟩

theorem firstEntries_append_singleton (entries : List String) (text : String) :
    firstEntries (entries ++ [text]) = noteFirst (firstEntries entries) (text, entries.length) := by
  simp [firstEntries, List.zipIdx_append]

/-- Looking a text up among the first entries finds its first index. -/
theorem get?_firstEntries (entries : List String) (text : String) :
    (firstEntries entries).get? text = entries.idxOf? text := by
  suffices reversed : ∀ reversed : List String,
      (firstEntries reversed.reverse).get? text = reversed.reverse.idxOf? text by
    simpa using reversed entries.reverse
  intro reversed
  induction reversed with
  | nil => simp [firstEntries, Table.get?]
  | cons last rest ih =>
    rw [List.reverse_cons, firstEntries_append_singleton, List.idxOf?, List.findIdx?_append,
      ← List.idxOf?, ← ih]
    unfold noteFirst
    by_cases same : text = last
    · subst same
      cases known : (firstEntries rest.reverse).get? text with
      | none => simp [Table.get?_insert]
      | some index => simp [known]
    · have differs : (text == last) = false := by simpa using same
      have backward : (last == text) = false := by simpa using fun h => same h.symm
      split <;> simp [Table.get?_insert, differs, backward]

/-- Without entries there are no first ones. -/
theorem firstEntries_nil : (⟨{}⟩ : Table String Nat) = firstEntries (#[] : Array String).toList :=
  rfl

-- ==== heaps

structure StringHeap where
  entries : Array String := #[]
  /-- The different texts with their first indices. -/
  known : Table String Nat := ⟨{}⟩
  known_eq : known = firstEntries entries.toList := by exact firstEntries_nil
deriving Repr

namespace StringHeap

theorem ext_entries {heap other : StringHeap} (same : heap.entries = other.entries) :
    heap = other := by
  obtain ⟨entries, known, rfl⟩ := heap
  obtain ⟨entries', known', rfl⟩ := other
  subst same
  rfl

instance : DecidableEq StringHeap := fun heap other =>
  if same : heap.entries = other.entries then isTrue (ext_entries same)
  else isFalse fun equal => same (congrArg entries equal)

/-- The index written where there is no text. -/
def noString : UInt32 := 0xFFFFFFFF

def ofEntries (entries : List String) : StringHeap where
  entries := entries.toArray
  known := firstEntries entries
  known_eq := rfl

def size (heap : StringHeap) : Nat := heap.entries.size

/-- The text at an index. -/
def get? (heap : StringHeap) (index : UInt32) : Option String := heap.entries[index.toNat]?

/-- The index of the first entry equal to `text`. -/
def lookup? (heap : StringHeap) (text : String) : Option UInt32 :=
  (heap.known.get? text).map UInt32.ofNat

theorem lookup?_eq (heap : StringHeap) (text : String) :
    heap.lookup? text = (heap.entries.toList.idxOf? text).map UInt32.ofNat := by
  rw [lookup?, heap.known_eq, get?_firstEntries]

/-- Add an entry at the end. -/
def push (heap : StringHeap) (text : String) : StringHeap :=
  let known := noteFirst heap.known (text, heap.size)
  { entries := heap.entries.push text
    known
    known_eq := by
      rw [Array.toList_push, firstEntries_append_singleton, ← heap.known_eq, Array.length_toList]
      rfl }

/-- The index of `text`, which is added at the end if it is new. -/
def intern (heap : StringHeap) (text : String) : UInt32 × StringHeap :=
  match heap.lookup? text with
  | some index => (index, heap)
  | none => (UInt32.ofNat heap.size, heap.push text)

/-- The index of a text that may be absent. -/
def internOption (heap : StringHeap) : Option String → UInt32 × StringHeap
  | some text => heap.intern text
  | none => (noString, heap)

end StringHeap

end StackAsm
