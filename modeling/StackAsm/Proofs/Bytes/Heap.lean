/-
String heaps while a file is written, and afterwards. A writer only ever
adds entries at the end of its heap (`StringHeap.Grows`,
`Encode.Extends`), so an index handed out once stays good: the heap that
stands in the finished file answers the text it was handed out for, as
long as thirty-two bits are enough for the places (`get?_of_intern`). That
is why a name can be read back although the heap is complete only after
the body that names it was written.
-/
import StackAsm.Proofs.Bytes.Reads

namespace StackAsm

variable {α β : Type}

namespace StringHeap

-- ==== growth

/-- `later` has the entries of `heap` and perhaps more behind them. -/
def Grows (heap later : StringHeap) : Prop := heap.entries.toList <+: later.entries.toList

theorem Grows.refl (heap : StringHeap) : heap.Grows heap := List.prefix_refl _

theorem Grows.trans {heap later final : StringHeap}
    (h : heap.Grows later) (h' : later.Grows final) : heap.Grows final :=
  List.IsPrefix.trans h h'

/-- An entry keeps its place. -/
theorem Grows.getElem? {heap later : StringHeap} (h : heap.Grows later)
    {i : Nat} {text : String} (hi : heap.entries[i]? = some text) :
    later.entries[i]? = some text := by
  obtain ⟨_, hmore⟩ := h
  rw [← Array.getElem?_toList] at hi ⊢
  obtain ⟨hlt, -⟩ := List.getElem?_eq_some_iff.1 hi
  rw [← hmore, List.getElem?_append_left hlt]
  exact hi

theorem lookup?_eq_none_iff {heap : StringHeap} {text : String} :
    heap.lookup? text = none ↔ text ∉ heap.entries.toList := by
  rw [lookup?_eq, Option.map_eq_none_iff, List.idxOf?_eq_none_iff]

/-- A text is added behind all entries exactly if it is new. -/
theorem entries_intern (heap : StringHeap) (text : String) :
    (heap.intern text).2.entries.toList
      = heap.entries.toList ++ if text ∈ heap.entries.toList then [] else [text] := by
  unfold intern
  cases hfound : heap.lookup? text with
  | some =>
    have hold : text ∈ heap.entries.toList := by
      by_contra hnew
      rw [lookup?_eq_none_iff.2 hnew] at hfound
      cases hfound
    rw [if_pos hold, List.append_nil]
  | none =>
    rw [if_neg (lookup?_eq_none_iff.1 hfound)]
    exact Array.toList_push ..

theorem grows_intern (heap : StringHeap) (text : String) : heap.Grows (heap.intern text).2 :=
  ⟨_, (heap.entries_intern text).symm⟩

-- ==== indices

/-- What was handed out for a text is what a look-up then answers. -/
theorem lookup?_intern (heap : StringHeap) (text : String) :
    (heap.intern text).2.lookup? text = some (heap.intern text).1 := by
  unfold intern
  cases hfound : heap.lookup? text with
  | some => exact hfound
  | none =>
    rw [lookup?_eq_none_iff] at hfound
    have hpush : (heap.push text).entries.toList = heap.entries.toList ++ [text] :=
      Array.toList_push ..
    rw [lookup?_eq, hpush, List.idxOf?, List.findIdx?_append, ← List.idxOf?,
      List.idxOf?_eq_none_iff.2 hfound]
    simp [size]

/-- An interned text stands in the heap at some place, and its index is
that place in thirty-two bits. -/
theorem intern_place (heap : StringHeap) (text : String) :
    ∃ i, (heap.intern text).1 = UInt32.ofNat i ∧ (heap.intern text).2.entries[i]? = some text := by
  have hfound := heap.lookup?_intern text
  rw [lookup?_eq, Option.map_eq_some_iff] at hfound
  obtain ⟨i, hplace, hindex⟩ := hfound
  obtain ⟨hlt, hi, -⟩ := List.idxOf?_eq_some_iff.1 hplace
  refine ⟨i, hindex.symm, ?_⟩
  rw [← Array.getElem?_toList, List.getElem?_eq_getElem hlt, hi]

/-- Whether the indices of a heap are good on `final`: it has all entries
of the heap, and thirty-two bits are enough for their places. -/
def Lasts (heap final : StringHeap) : Prop := heap.Grows final ∧ heap.size < UInt32.size

/-- A heap that keeps to the limit on counts has an index for every
entry. -/
theorem Grows.lasts {heap final : StringHeap} (h : heap.Grows final)
    (hsmall : final.size ≤ countLimit) : heap.Lasts final := by
  have hle : heap.size ≤ final.size := List.IsPrefix.length_le h
  exact ⟨h, Nat.lt_of_le_of_lt (Nat.le_trans hle hsmall) (by decide)⟩

section Final

variable {heap final : StringHeap} {text : String} (hlasts : (heap.intern text).2.Lasts final)

include hlasts

/-- In a heap with an index for every entry the index is the place. -/
theorem toNat_intern :
    (heap.intern text).1.toNat < (heap.intern text).2.size
      ∧ final.entries[(heap.intern text).1.toNat]? = some text := by
  obtain ⟨_, hindex, hi⟩ := intern_place heap text
  obtain ⟨hlt, -⟩ := Array.getElem?_eq_some_iff.1 hi
  rw [hindex, UInt32.toNat_ofNat_of_lt' (Nat.lt_trans hlt hlasts.2)]
  exact ⟨hlt, hlasts.1.getElem? hi⟩

/-- The finished heap answers the text an index was handed out for. -/
theorem get?_of_intern : final.get? (heap.intern text).1 = some text := (toNat_intern hlasts).2

/-- No text has the index that stands for no text. -/
theorem intern_ne_noString : (heap.intern text).1 ≠ noString := by
  intro h
  have hlt := (toNat_intern hlasts).1
  rw [h] at hlt
  exact absurd hlasts.2 (Nat.not_lt.2 hlt)

end Final

theorem ofEntries_toList (heap : StringHeap) :
    ofEntries heap.entries.toList = heap := ext_entries (Array.toArray_toList ..)

/-- Interning into a heap whose entries are known. -/
theorem intern_ofEntries (texts : List String) (text : String) :
    (ofEntries texts).intern text = match texts.idxOf? text with
        | some i => (UInt32.ofNat i, ofEntries texts)
        | none => (UInt32.ofNat texts.length, ofEntries (texts ++ [text])) := by
  have hentries : (ofEntries texts).entries.toList = texts := List.toList_toArray
  unfold intern
  rw [lookup?_eq, hentries]
  cases texts.idxOf? text with
  | some => rfl
  | none =>
    have hpush : (ofEntries texts).push text = ofEntries (texts ++ [text]) :=
      ext_entries (List.push_toArray ..)
    rw [hpush]
    rfl

end StringHeap

-- ==== writers

namespace Encode

variable {heap later : StringHeap} {n : Nat} {context : String} {bytes : List UInt8}

/-- A writer that only adds to its heap. -/
def Extends (write : Encode α) : Prop :=
  ∀ heap value later, write.run heap = .ok value later → heap.Grows later

/-- Taking the answer of a step that needs no heap, which must have
one. -/
theorem run_lift_ok_iff {step : Except FormatFault α} {value : α} :
    (lift step).run heap = .ok value later ↔ step = .ok value ∧ heap = later := by
  cases step with
  | ok =>
    unfold lift
    rw [run_pure_ok_iff, Except.ok.injEq]
  | error =>
    unfold lift
    rw [run_throw_ok_iff]
    constructor
    · exact False.elim
    · rintro ⟨h, -⟩
      cases h

theorem count32_ok_iff :
    count32 n context = .ok bytes ↔ n < UInt32.size ∧ littleEndian 4 n = bytes := by
  unfold count32
  by_cases hfits : n < UInt32.size
  · rw [if_pos hfits, Except.ok.injEq]
    simp [hfits]
  · rw [if_neg hfits]
    simp [hfits]

theorem count16_ok_iff :
    count16 n context = .ok bytes ↔ n < UInt16.size ∧ littleEndian 2 n = bytes := by
  unfold count16
  by_cases hfits : n < UInt16.size
  · rw [if_pos hfits, Except.ok.injEq]
    simp [hfits]
  · rw [if_neg hfits]
    simp [hfits]

theorem run_count32_ok_iff :
    (lift (count32 n context)).run heap = .ok bytes later
      ↔ n < UInt32.size ∧ littleEndian 4 n = bytes ∧ heap = later := by
  rw [run_lift_ok_iff, count32_ok_iff, and_assoc]

theorem run_count16_ok_iff :
    (lift (count16 n context)).run heap = .ok bytes later
      ↔ n < UInt16.size ∧ littleEndian 2 n = bytes ∧ heap = later := by
  rw [run_lift_ok_iff, count16_ok_iff, and_assoc]

/-- Several items are written as the bytes of each, in order. -/
theorem run_all_ok_iff {items : List α} {write : α → Encode (List UInt8)} :
    (all items write).run heap = .ok bytes later
      ↔ ∃ parts, (items.mapM write).run heap = .ok parts later
        ∧ parts.flatten = bytes := by
  unfold all
  rw [run_bind_ok_iff]
  constructor
  · rintro ⟨parts, _, hparts, h⟩
    obtain ⟨rfl, rfl⟩ := run_pure_ok_iff.1 h
    exact ⟨parts, hparts, rfl⟩
  · rintro ⟨parts, hparts, rfl⟩
    exact ⟨parts, later, hparts, rfl⟩

theorem run_heapString (text : String) (heap : StringHeap) :
    (heapString text).run heap = .ok (bytes32 (heap.intern text).1) (heap.intern text).2 := rfl

theorem run_heapString?_some (text : String) (heap : StringHeap) :
    (heapString? (some text)).run heap
      = .ok (bytes32 (heap.intern text).1) (heap.intern text).2 := rfl

theorem run_heapString?_none (heap : StringHeap) :
    (heapString? none).run heap = .ok (bytes32 StringHeap.noString) heap := rfl

/-- A text takes an index, whatever the heap. -/
theorem length_heapString {text : String} (h : (heapString text).run heap = .ok bytes later) :
    bytes.length = 4 := by
  rw [run_heapString] at h
  injection h with hbytes
  rw [← hbytes, length_bytes32]

theorem length_heapString? {text : Option String}
    (h : (heapString? text).run heap = .ok bytes later) :
    bytes.length = 4 := by
  cases text with
  | none =>
    rw [run_heapString?_none] at h
    injection h with hbytes
    rw [← hbytes, length_bytes32]
  | some => exact length_heapString h

/-- An answer that was given on a heap which another one has grown
from. -/
def Wrote (write : Encode α) (final : StringHeap) (out : α) : Prop :=
  ∃ before after, write.run before = .ok out after ∧ after.Grows final

/-- Each of several items was written on its own. -/
theorem wrote_of_mapM {write : α → Encode β} {items : List α}
    {outs : List β} (hwrite : ∀ item, (write item).Extends)
    (h : (items.mapM write).run heap = .ok outs later) :
    heap.Grows later ∧ List.Forall₂ (fun item => (write item).Wrote later) items outs := by
  induction items generalizing heap outs with
  | nil =>
    obtain ⟨rfl, rfl⟩ := run_mapM_nil_ok_iff.1 h
    exact ⟨.refl heap, .nil⟩
  | cons item items ih =>
    obtain ⟨out, mid, _, hout, hrest, rfl⟩ := run_mapM_cons_ok_iff.1 h
    obtain ⟨hgrows, hothers⟩ := ih hrest
    exact ⟨(hwrite item heap out mid hout).trans hgrows, .cons ⟨heap, mid, hout, hgrows⟩ hothers⟩

end Encode

-- ==== readers

namespace Decode

variable {chunk text : String} {bytes : List UInt8} {written : StringHeap}

section Final

variable {heap later final : StringHeap} {bytes : List UInt8} (hlasts : later.Lasts final)

include hlasts

/-- A text written by its heap index is read back from the finished
heap. -/
theorem reads_heapString (h : (Encode.heapString text).run heap = .ok bytes later) :
    Reads (heapString final) bytes text := by
  rw [Encode.run_heapString] at h
  injection h with hbytes hlater
  subst hbytes hlater
  intro chunk tail position
  unfold heapString
  rw [run_bind_of_ok (reads_word32 _ chunk tail position)]
  unfold heapText
  rw [StringHeap.get?_of_intern hlasts]
  rfl

/-- The same for a text that may be absent. -/
theorem reads_heapString? {text : Option String}
    (h : (Encode.heapString? text).run heap = .ok bytes later) :
    Reads (heapString? final) bytes text := by
  cases text with
  | none =>
    rw [Encode.run_heapString?_none] at h
    injection h with hbytes hlater
    subst hbytes hlater
    intro chunk tail position
    unfold heapString?
    rw [run_bind_of_ok (reads_word32 _ chunk tail position), if_pos rfl]
    rfl
  | some =>
    rw [Encode.run_heapString?_some] at h
    injection h with hbytes hlater
    subst hbytes hlater
    intro chunk tail position
    unfold heapString?
    rw [run_bind_of_ok (reads_word32 _ chunk tail position),
      if_neg (StringHeap.intern_ne_noString hlasts)]
    unfold heapText
    rw [StringHeap.get?_of_intern hlasts]
    rfl

end Final

-- ==== several items at once

section Each

variable {α β γ δ : Type} {R : α → β → Prop} {items : List α}
  {outs : List β} {bytesOf : β → List UInt8} (h : List.Forall₂ R items outs)

include h

/-- Items that are read back one by one are read back in order; each is
told its place. -/
theorem readsEach_mapIdx_of_forall₂ {read : Nat → Decode γ} {value : Nat → α → γ}
    (hread : ∀ i, ∀ item ∈ items, ∀ out, R item out → Reads (read i) (bytesOf out) (value i item)) :
    ReadsEach read (outs.map bytesOf) (items.mapIdx value) := by
  induction h generalizing read value with
  | nil => exact ⟨rfl, fun i _ value hpart => nomatch hpart⟩
  | cons hfirst _ ih =>
    rw [List.map_cons, List.mapIdx_cons]
    refine ReadsEach.cons_iff.2 ⟨hread 0 _ (.head _) _ hfirst, ih ?_⟩
    exact fun i item hitem =>
      hread (i + 1) item (.tail _ hitem)

/-- The same, when the place of an item does not matter. -/
theorem readsEach_of_forall₂ {read : Decode γ} {value : α → γ}
    (hread : ∀ item ∈ items, ∀ out, R item out → Reads read (bytesOf out) (value item)) :
    ReadsEach (fun _ => read) (outs.map bytesOf) (items.map value) := by
  have hmap : items.mapIdx (fun _ item => value item) = items.map value := by
    apply List.ext_getElem?
    simp
  rw [← hmap]
  exact readsEach_mapIdx_of_forall₂ h fun _ => hread

/-- Items that are decided one by one are decided in order. -/
theorem decidesEach_of_forall₂ {read : Decode γ} {size : Nat} {fits : α → Prop} {value : α → γ}
    (hitem : ∀ item ∈ items, ∀ out, R item out → size ≤ (bytesOf out).length
        ∧ read.Decides (bytesOf out) (fits item) (value item)) :
    DecidesEach read size (outs.map bytesOf) (items.map fun item => (fits item, value item)) := by
  induction h with
  | nil => exact .nil
  | cons hfirst _ ih =>
    rw [List.forall_mem_cons] at hitem
    exact .cons (hitem.1 _ hfirst) (ih hitem.2)

/-- A counted list of items is read back with what follows it. -/
theorem reads_counted {count : Decode Nat} {size : Nat}
    {head more : List UInt8} {read : Decode γ} {value : α → γ} {next : List γ → Decode δ} {d : δ}
    (hcount : Counts count size head items.length)
    (hitem : ∀ item ∈ items, ∀ out, R item out →
      size ≤ (bytesOf out).length ∧ Reads read (bytesOf out) (value item))
    (hnext : (next (items.map value)).Reads more d) :
    Reads (count >>= fun n => times n (fun _ => read) >>= next)
      (head ++ ((outs.map bytesOf).flatten ++ more)) d := by
  have heach : ReadsEach (fun _ => read) (outs.map bytesOf) (items.map value) :=
    readsEach_of_forall₂ h fun item hmem out hout =>
      (hitem item hmem out hout).2
  have hsize : ∀ part ∈ outs.map bytesOf, size ≤ part.length :=
    List.forall_mem_map.2 (forall_mem_of_forall₂ h
      fun item hmem out hout => (hitem item hmem out hout).1)
  rw [h.length_eq, ← List.length_map bytesOf] at hcount
  exact Counts.reads hcount hsize heach hnext

/-- The same, for items that are read back as they were. -/
theorem reads_counted_self {count : Decode Nat} {size : Nat}
    {head more : List UInt8} {read : Decode α} {next : List α → Decode δ}
    {d : δ} (hcount : Counts count size head items.length)
    (hitem : ∀ item ∈ items, ∀ out, R item out →
      size ≤ (bytesOf out).length ∧ Reads read (bytesOf out) item)
    (hnext : (next items).Reads more d) :
    Reads (count >>= fun n => times n (fun _ => read) >>= next)
      (head ++ ((outs.map bytesOf).flatten ++ more)) d := by
  have hself : (next (items.map id)).Reads more d := by
    rwa [List.map_id]
  exact reads_counted h hcount hitem hself

end Each

-- ==== texts

theorem fromUTF8?_toUTF8 (text : String) :
    String.fromUTF8? ⟨text.toUTF8.data.toList.toArray⟩ = some text := by
  rw [Array.toArray_toList]
  unfold String.fromUTF8?
  split
  · rfl
  · rename_i hinvalid
    exact absurd text.isValidUTF8 hinvalid

/-- What a text is written as: the length of its bytes, and these. -/
theorem string_ok (h : Encode.string chunk text = .ok bytes) :
    text.toUTF8.data.toList.length < UInt32.size
      ∧ bytes = littleEndian 4 text.toUTF8.data.toList.length
          ++ text.toUTF8.data.toList := by
  obtain ⟨_, hcount, h⟩ := bind_ok_iff.1 h
  rw [pure_ok_iff] at h
  obtain ⟨hfits, rfl⟩ := Encode.count32_ok_iff.1 hcount
  exact ⟨hfits, h.symm⟩

/-- A text with its length in front is read back. -/
theorem reads_string (h : Encode.string chunk text = .ok bytes) : Reads string bytes text := by
  obtain ⟨hfits, rfl⟩ := string_ok h
  have hword := reads_littleEndian32 hfits
  refine hword.bind ?_
  rw [UInt32.toNat_ofNat_of_lt' hfits]
  have hbytes := reads_exact text.toUTF8.data.toList "string bytes"
  intro chunk' tail position
  rw [run_bind_of_ok (hbytes chunk' tail position)]
  simp only [fromUTF8?_toUTF8]
  rfl

/-- A text takes at least the bytes of its length. -/
theorem length_string (h : Encode.string chunk text = .ok bytes) : 4 ≤ bytes.length := by
  obtain ⟨-, rfl⟩ := string_ok h
  rw [List.length_append, length_littleEndian]
  omega

/-- What a heap is written as: its count and its texts. -/
theorem heap_ok (h : Encode.heap written = .ok bytes) :
    written.size < UInt32.size ∧ ∃ texts,
      written.entries.toList.mapM (Encode.string "string heap") = .ok texts
        ∧ bytes = littleEndian 4 written.size ++ texts.flatten := by
  obtain ⟨_, hcount, h⟩ := bind_ok_iff.1 h
  obtain ⟨texts, htexts, h⟩ := bind_ok_iff.1 h
  rw [pure_ok_iff] at h
  obtain ⟨hfits, rfl⟩ := Encode.count32_ok_iff.1 hcount
  exact ⟨hfits, texts, htexts, h.symm⟩

/-- A heap that keeps to the limit is read back. -/
theorem reads_heap (h : Encode.heap written = .ok bytes)
    (hsmall : written.size ≤ countLimit) : Reads heap bytes written := by
  obtain ⟨-, texts, htexts, rfl⟩ := heap_ok h
  have hcount : Counts (count32 4 "string heap") 4
      (littleEndian 4 written.size) written.entries.toList.length :=
    counts_count32 hsmall 4 "string heap"
  have hread : Reads heap _ _ := reads_counted_self (forall₂_of_mapM_ok htexts) hcount
    (fun _ _ _ hpart => ⟨length_string hpart, reads_string hpart⟩)
    (reads_pure (StringHeap.ofEntries written.entries.toList))
  rw [StringHeap.ofEntries_toList, List.append_nil] at hread
  exact List.map_id texts ▸ hread

/-- A heap over the limit is refused. -/
theorem refuses_heap (h : Encode.heap written = .ok bytes)
    (hlarge : countLimit < written.size) : Refuses heap bytes := by
  obtain ⟨hfits, _, -, rfl⟩ := heap_ok h
  have hcount := refuses_count32 hlarge hfits 4 "string heap"
  exact (hcount.append _).bind _

end Decode

end StackAsm
