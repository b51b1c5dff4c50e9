/-
String heaps over a history of calls. Whatever a heap was made from and
whatever was asked of it since, the first entry of a text answers for it
(`StringHeap.toNat_lookup?`), and a new text goes behind all others.
So a text keeps its index until the heap is emptied, and no other text has
it (`StringHeap.intern_eq_iff`).
-/
import StackAsm.Proofs.Bytes.Writers

namespace StackAsm

inductive HeapCall where
  | intern (text : String)
  | internOption (text : Option String)
  | lookup (text : String)
  | clear

namespace StringHeap

/-- The heap behind a call. -/
def call (heap : StringHeap) : HeapCall → StringHeap
  | .intern text => (heap.intern text).2
  | .internOption text => (heap.internOption text).2
  | .lookup _ => heap
  | .clear => {}

/-- The heap behind several calls. -/
def after (heap : StringHeap) (calls : List HeapCall) : StringHeap := calls.foldl call heap

variable {heap later : StringHeap} {text other : String}

/-- As long as every entry has an index, a look-up answers the place of
the first one that holds the text. -/
theorem toNat_lookup? (hfits : heap.size < UInt32.size) (text : String) :
    (heap.lookup? text).map UInt32.toNat = heap.entries.toList.idxOf? text := by
  rw [lookup?_eq]
  cases hfound : heap.entries.toList.idxOf? text with
  | none => rfl
  | some place =>
    have hlt : place < heap.size := (List.idxOf?_eq_some_iff.1 hfound).1
    rw [Option.map_some, Option.map_some, UInt32.toNat_ofNat_of_lt' (Nat.lt_trans hlt hfits)]

/-- The first entry of a text stays the first. -/
theorem Grows.lookup? (h : heap.Grows later) {index : UInt32}
    (hfound : heap.lookup? text = some index) : later.lookup? text = some index := by
  obtain ⟨_, hmore⟩ := h
  rw [lookup?_eq, Option.map_eq_some_iff] at hfound ⊢
  obtain ⟨place, hplace, rfl⟩ := hfound
  refine ⟨place, ?_, rfl⟩
  rw [List.idxOf?] at hplace ⊢
  rw [← hmore, List.findIdx?_append, hplace, Option.some_or]

theorem grows_after {calls : List HeapCall} (h : .clear ∉ calls) (heap : StringHeap) :
    heap.Grows (heap.after calls) := by
  induction calls generalizing heap with
  | nil => exact Grows.refl heap
  | cons call calls ih =>
    rw [List.mem_cons, not_or] at h
    refine Grows.trans ?_ (ih h.2 (heap.call call))
    cases call with
    | intern text => exact heap.grows_intern text
    | internOption text =>
      cases text with
      | none => exact Grows.refl heap
      | some text => exact heap.grows_intern text
    | lookup => exact Grows.refl heap
    | clear => exact absurd rfl h.1

/-- One text has one index on a heap that grows, and two have two. -/
theorem intern_eq_iff (h : (heap.intern text).2.Grows later)
    (hfits : (later.intern other).2.size < UInt32.size) :
    (later.intern other).1 = (heap.intern text).1 ↔ other = text := by
  have hgrows := h.trans (later.grows_intern other)
  have hle : (heap.intern text).2.size ≤ _ := hgrows.length_le
  constructor
  · intro hsame
    have htext := get?_of_intern ⟨hgrows, Nat.lt_of_le_of_lt hle hfits⟩
    rw [← hsame, get?_of_intern ⟨.refl _, hfits⟩] at htext
    exact Option.some.inj htext
  · rintro rfl
    exact Option.some.inj ((later.lookup?_intern _).symm.trans (hgrows.lookup? (heap.lookup?_intern _)))

/-- A heap made from any entries, with any calls behind it: the first entry
of a text answers for it, and a text without one has no answer. A text is
put behind the entries there are, if it is new, and is found under the index
handed out for it. That is its index, and no other text's, until the heap is
emptied. What is written of the heap is read back, and it is written if
no text is too long. -/
theorem first_entry_answers (entries : List String) (calls : List HeapCall) :
    let heap := (ofEntries entries).after calls
    (heap.size < UInt32.size → ∀ text,
        (heap.lookup? text).map UInt32.toNat = heap.entries.toList.idxOf? text)
      ∧ (∀ text, heap.lookup? text = none ↔ text ∉ heap.entries.toList)
      ∧ (∀ text, (heap.intern text).2.entries.toList
        = heap.entries.toList ++ if text ∈ heap.entries.toList then [] else [text])
      ∧ (∀ text, (heap.intern text).2.size < UInt32.size →
        (heap.intern text).2.get? (heap.intern text).1 = some text)
      ∧ (∀ text other more, .clear ∉ more →
        let later := ((heap.intern text).2.after more).intern other
        later.2.size < UInt32.size → (later.1 = (heap.intern text).1 ↔ other = text))
      ∧ (heap.size ≤ countLimit →
        (∀ bytes, Encode.heap heap = .ok bytes → Decode.heap.Reads bytes heap)
          ∧ ((∀ text ∈ heap.entries.toList, text.utf8ByteSize < UInt32.size) →
            ∃ bytes, Encode.heap heap = .ok bytes)) := by
  intro heap
  refine ⟨toNat_lookup?, fun _ => lookup?_eq_none_iff,
    heap.entries_intern, fun _ hfits => get?_of_intern ⟨.refl _, hfits⟩,
    fun _ _ _ hmore => intern_eq_iff (grows_after hmore _), fun hsmall => ?_⟩
  refine ⟨fun _ hbytes => Decode.reads_heap hbytes hsmall, fun htexts => ?_⟩
  have hfits : heap.size < UInt32.size := Nat.lt_of_le_of_lt hsmall (by decide)
  exact (Checks.failsOnly_heap (fun _ => hfits) fun _ => htexts).exists_ok Checks.not_leaves_all

end StringHeap

end StackAsm
