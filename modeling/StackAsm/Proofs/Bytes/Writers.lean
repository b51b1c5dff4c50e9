/-
Writers, on one heap and on another. A writer names texts by their places
on its heap, so what it writes depends on what was written before. Whether
it can write at all does not, and neither do the texts it puts there: what
it does on one heap it does on any (`Encode.Mirrors`). Why it may fail is
part of that. What is made sure of beforehand is never the reason
(`Checks`). A heap holds each of its texts once, whatever their order
(`StringHeap.perm_internAll`).
-/
import Mathlib.Data.List.Nodup
import Mathlib.Data.List.Perm.Subperm
import StackAsm.Proofs.Bytes.Heap

namespace StackAsm

variable {α β : Type} {F : FormatFault → Prop}

-- ==== heaps

namespace StringHeap

/-- The heap with texts put on it one after the other. -/
def internAll (heap : StringHeap) (texts : List String) : StringHeap :=
  texts.foldl (fun heap text => (heap.intern text).2) heap

theorem internAll_append (heap : StringHeap) (texts more : List String) :
    heap.internAll (texts ++ more) = (heap.internAll texts).internAll more := List.foldl_append

theorem grows_internAll (heap : StringHeap) (texts : List String) :
    heap.Grows (heap.internAll texts) := by
  induction texts generalizing heap with
  | nil => exact Grows.refl heap
  | cons text rest ih => exact (heap.grows_intern text).trans (ih _)

variable {heap : StringHeap}

theorem mem_entries_intern {text wanted : String} :
    wanted ∈ (heap.intern text).2.entries.toList
      ↔ wanted ∈ heap.entries.toList ∨ wanted = text := by
  rw [entries_intern, List.mem_append]
  split
  · rename_i hold
    grind
  · rw [List.mem_singleton]

theorem nodup_intern (h : heap.entries.toList.Nodup) (text : String) :
    (heap.intern text).2.entries.toList.Nodup := by
  rw [entries_intern]
  split
  · rwa [List.append_nil]
  · rename_i hnew
    rw [← List.concat_eq_append]
    exact h.concat hnew

theorem mem_entries_internAll {texts : List String} {wanted : String} :
    wanted ∈ (heap.internAll texts).entries.toList
      ↔ wanted ∈ heap.entries.toList ∨ wanted ∈ texts := by
  induction texts generalizing heap with
  | nil => simp [internAll]
  | cons text rest ih =>
    show wanted ∈ ((heap.intern text).2.internAll rest).entries.toList ↔ _
    rw [ih, mem_entries_intern, List.mem_cons, or_assoc]

theorem nodup_internAll (texts : List String) (h : heap.entries.toList.Nodup) :
    (heap.internAll texts).entries.toList.Nodup := by
  induction texts generalizing heap with
  | nil => exact h
  | cons text rest ih => exact ih (nodup_intern h text)

/-- A new heap has one entry for each text. -/
theorem entries_internAll (texts : List String) :
    (internAll {} texts).entries.toList.Nodup
      ∧ ∀ text, text ∈ (internAll {} texts).entries.toList
        ↔ text ∈ texts := by
  refine ⟨nodup_internAll texts List.nodup_nil, fun _ => ?_⟩
  rw [mem_entries_internAll]
  exact or_iff_right List.not_mem_nil

/-- Heaps for the same texts have the same entries. -/
theorem perm_internAll {texts others : List String} (h : ∀ text, text ∈ texts ↔ text ∈ others) :
    (internAll {} texts).entries.toList.Perm (internAll {} others).entries.toList := by
  obtain ⟨hnodup, hmem⟩ := entries_internAll texts
  obtain ⟨hnodup', hmem'⟩ := entries_internAll others
  refine (List.perm_ext_iff_of_nodup hnodup hnodup').2 fun _ => ?_
  rw [hmem, hmem', h]

theorem size_internAll_le (texts : List String) :
    (internAll {} texts).size ≤ texts.length :=
  (List.Nodup.subperm (entries_internAll texts).1 fun text =>
    ((entries_internAll texts).2 text).1).length_le

end StringHeap

-- ==== reasons to fail

/-- Whether the format has too few bytes for a number or a length. -/
def FormatFault.IsSize (fault : FormatFault) : Prop := ∃ context, fault = .countOutOfRange context

/-- A step without a heap that fails for such reasons only. -/
def FailsOnly (F : FormatFault → Prop) (step : Except FormatFault α) :
    Prop := ∀ fault, step = .error fault → F fault

namespace FailsOnly

theorem ok (value : α) : FailsOnly F (.ok value) := fun _ => nofun

theorem error {fault : FormatFault} (h : F fault) : FailsOnly F (.error fault : Except _ α) := by
  intro other hother
  cases hother
  exact h

theorem bind {step : Except FormatFault α}
    {next : α → Except FormatFault β} (hstep : FailsOnly F step)
    (hnext : ∀ a, FailsOnly F (next a)) : FailsOnly F (step >>= next) := by
  cases step with
  | ok a => exact hnext a
  | error fault => exact error (hstep fault rfl)

theorem mapM {step : α → Except FormatFault β} {items : List α}
    (h : ∀ item ∈ items, FailsOnly F (step item)) :
    FailsOnly F (items.mapM step) := by
  induction items with
  | nil => exact ok []
  | cons item rest ih =>
    rw [List.forall_mem_cons] at h
    rw [List.mapM_cons]
    exact h.1.bind fun _ => (ih h.2).bind fun _ => ok _

/-- A step that succeeds does not fail. -/
theorem of_ok {step : Except FormatFault α} {value : α}
    (h : step = .ok value) : FailsOnly F step := by
  rw [h]
  exact ok value

theorem exists_ok {step : Except FormatFault α} (h : FailsOnly F step)
    (hF : ∀ fault, ¬ F fault) : ∃ value, step = .ok value := by
  cases step with
  | ok value => exact ⟨value, rfl⟩
  | error fault => exact absurd (h fault rfl) (hF fault)

end FailsOnly

/-- What is made sure of before something is written: that references are
resolved, that opcodes, operands and labels are in order, and that counts
and lengths fit their bytes. -/
structure Checks where
  resolved : Prop
  known : Prop
  sized : Prop

namespace Checks

/-- The faults that are possible then. -/
def Leaves (checks : Checks) : FormatFault → Prop
  | .unresolved _ => ¬ checks.resolved
  | .countOutOfRange _ => ¬ checks.sized
  | _ => ¬ checks.known

/-- Nothing is made sure of. -/
def none : Checks := ⟨False, False, False⟩

/-- Everything is made sure of. -/
def all : Checks := ⟨True, True, True⟩

/-- All but the sizes is made sure of. -/
def allButSizes : Checks := ⟨True, True, False⟩

variable {checks : Checks}

theorem failsOnly_count16 {count : Nat}
    (h : checks.sized → count < UInt16.size) (context : String) :
    FailsOnly checks.Leaves (Encode.count16 count context) := by
  unfold Encode.count16
  split
  · exact .ok _
  · rename_i hlarge
    exact .error fun hsized => hlarge (h hsized)

theorem failsOnly_count32 {count : Nat}
    (h : checks.sized → count < UInt32.size) (context : String) :
    FailsOnly checks.Leaves (Encode.count32 count context) := by
  unfold Encode.count32
  split
  · exact .ok _
  · rename_i hlarge
    exact .error fun hsized => hlarge (h hsized)

theorem failsOnly_string {text : String}
    (h : checks.sized → text.utf8ByteSize < UInt32.size) (chunk : String) :
    FailsOnly checks.Leaves (Encode.string chunk text) :=
  (failsOnly_count32 h _).bind fun _ => .ok _

theorem failsOnly_heap {written : StringHeap} (hsize : checks.sized → written.size < UInt32.size)
    (htexts : checks.sized → ∀ text ∈ written.entries.toList, text.utf8ByteSize < UInt32.size) :
    FailsOnly checks.Leaves (Encode.heap written) := by
  refine (failsOnly_count32 hsize _).bind fun _ => ?_
  refine FailsOnly.bind ?_ fun _ => .ok _
  exact .mapM fun text htext =>
    failsOnly_string (fun hcheck => htexts hcheck text htext) _

/-- A heap with a text that is too long is not written. -/
theorem heap_of_long {written : StringHeap} {text : String} (hsize : written.size < UInt32.size)
    (htext : text ∈ written.entries.toList) (hlong : UInt32.size ≤ text.utf8ByteSize) :
    Encode.heap written = .error (.countOutOfRange "string heap string length exceeds u32") := by
  have hfails : FailsOnly (· = .countOutOfRange
      "string heap string length exceeds u32") (Encode.heap written) := by
    unfold Encode.heap Encode.count32
    rw [if_pos hsize]
    refine FailsOnly.bind (.ok _) fun _ =>
      FailsOnly.bind (.mapM fun _ _ => ?_) fun _ => .ok _
    refine FailsOnly.bind ?_ fun _ => .ok _
    unfold Encode.count32
    split
    · exact .ok _
    · exact .error rfl
  cases hheap : Encode.heap written with
  | error fault => rw [hfails fault hheap]
  | ok =>
    obtain ⟨-, _, htexts, -⟩ := Decode.heap_ok hheap
    obtain ⟨_, -, hpart⟩ := (exists_of_forall₂ (forall₂_of_mapM_ok htexts)).1 text htext
    exact absurd (Decode.string_ok hpart).1 (Nat.not_lt.2 hlong)

theorem not_leaves_all (fault : FormatFault) : ¬ all.Leaves fault := by
  cases fault <;> exact not_not_intro trivial

theorem isSize_of_leaves {fault : FormatFault} (h : allButSizes.Leaves fault) : fault.IsSize := by
  cases fault with
  | countOutOfRange context => exact ⟨context, rfl⟩
  | _ => exact absurd trivial h

end Checks

-- ==== writers

namespace Encode

/-- Where the one writer succeeds on a heap, the other succeeds on any.
Both put those texts there, and `P` holds of their answers. Where the one
fails, it is for such a reason. -/
structure Mirrors (texts : List String) (F : FormatFault → Prop)
    (P : α → Prop) (write other : Encode α) : Prop where
  ok : ∀ {heap out later}, write.run heap = .ok out later →
    later = heap.internAll texts ∧ P out ∧ ∀ start, ∃ answer,
      other.run start = .ok answer (start.internAll texts) ∧ P answer
  error : ∀ {heap fault later}, write.run heap = .error fault later → F fault

/-- What a writer does on one heap it does on any. -/
abbrev Writes (texts : List String) (F : FormatFault → Prop) (write : Encode α) : Prop :=
  Mirrors texts F (fun _ => True) write write

variable {texts more : List String} {P : α → Prop} {Q : β → Prop} {write other : Encode α}

theorem Mirrors.bind {next then' : α → Encode β} (h : Mirrors texts F P write other)
    (hnext : ∀ a b, P a → P b → Mirrors more F Q (next a) (then' b)) :
    Mirrors (texts ++ more) F Q (write >>= next) (other >>= then') where
  ok {heap out later} hrun := by
    obtain ⟨a, middle, hwrite, hrest⟩ := run_bind_ok_iff.1 hrun
    obtain ⟨rfl, ha, hother⟩ := h.ok hwrite
    obtain ⟨b, -, hb⟩ := hother {}
    obtain ⟨rfl, hout, -⟩ := (hnext a b ha hb).ok hrest
    refine ⟨(StringHeap.internAll_append ..).symm, hout, fun start => ?_⟩
    obtain ⟨b, hstart, hb⟩ := hother start
    obtain ⟨-, -, hthen⟩ := (hnext a b ha hb).ok hrest
    obtain ⟨answer, hanswer, hQ⟩ := hthen (start.internAll texts)
    refine ⟨answer, ?_, hQ⟩
    rw [run_bind_of_ok hstart, hanswer, StringHeap.internAll_append]
  error hrun := by
    rcases run_bind_error_iff.1 hrun with hfault | ⟨a, middle, hwrite, hrest⟩
    · exact h.error hfault
    · obtain ⟨-, ha, hother⟩ := h.ok hwrite
      obtain ⟨b, -, hb⟩ := hother {}
      exact (hnext a b ha hb).error hrest

theorem mirrors_pure {a b : α} (ha : P a) (hb : P b) : Mirrors [] F P (pure a) (pure b) where
  ok hrun := by
    obtain ⟨rfl, rfl⟩ := run_pure_ok_iff.1 hrun
    exact ⟨rfl, ha, fun _ => ⟨b, rfl, hb⟩⟩
  error hrun := by cases hrun

theorem writes_pure (a : α) : Writes [] F (pure a) := mirrors_pure trivial trivial

/-- What is made of the answers in the end does not matter. -/
theorem Mirrors.map (h : Mirrors texts F P write other) (f g : α → β) :
    Mirrors texts F (fun _ => True) (write >>= fun a => pure (f a))
      (other >>= fun a => pure (g a)) := by
  have hmapped := h.bind fun a b _ _ =>
    @mirrors_pure β F (fun _ => True) (f a) (g b) trivial trivial
  rwa [List.append_nil] at hmapped

theorem mirrors_throw {fault : FormatFault} (h : F fault) :
    Mirrors texts F P (throw fault) other where
  ok hrun := (run_throw_ok_iff.1 hrun).elim
  error hrun := by
    cases hrun
    exact h

theorem mirrors_lift {step : Except FormatFault α} (h : FailsOnly F step) :
    Mirrors [] F (fun a => step = .ok a) (lift step) (lift step) where
  ok hrun := by
    obtain ⟨rfl, rfl⟩ := run_lift_ok_iff.1 hrun
    exact ⟨rfl, rfl, fun _ => ⟨_, rfl, rfl⟩⟩
  error hrun := by
    cases step with
    | ok => cases hrun
    | error =>
      cases hrun
      exact h _ rfl

theorem writes_heapString (text : String) : Writes [text] F (heapString text) where
  ok hrun := by
    rw [run_heapString] at hrun
    cases hrun
    exact ⟨rfl, trivial, fun start =>
      ⟨_, run_heapString text start, trivial⟩⟩
  error hrun := by cases hrun

theorem writes_heapString? (text : Option String) : Writes text.toList F (heapString? text) := by
  cases text with
  | none =>
    constructor
    · intro heap out later hrun
      rw [run_heapString?_none] at hrun
      cases hrun
      exact ⟨rfl, trivial, fun start =>
        ⟨_, run_heapString?_none start, trivial⟩⟩
    · intro heap fault later hrun
      cases hrun
  | some text => exact writes_heapString text

theorem writes_mapM {write : α → Encode β} {texts : α → List String}
    {items : List α} (h : ∀ item ∈ items, (write item).Writes (texts item) F) :
    Writes (items.flatMap texts) F (items.mapM write) := by
  induction items with
  | nil => exact writes_pure []
  | cons item rest ih =>
    rw [List.forall_mem_cons] at h
    rw [List.mapM_cons, List.flatMap_cons]
    exact h.1.bind fun _ _ _ _ => (ih h.2).map _ _

theorem writes_all {write : α → Encode (List UInt8)} {texts : α → List String} {items : List α}
    (h : ∀ item ∈ items, (write item).Writes (texts item) F) :
    Writes (items.flatMap texts) F (all items write) := (writes_mapM h).map _ _

/-- What is known of every answer is known of both. -/
theorem Mirrors.of_ok (h : Writes texts F write)
    (hout : ∀ {heap out later}, write.run heap = .ok out later → P out) :
    Mirrors texts F P write write where
  ok hrun := by
    obtain ⟨hlater, -, hothers⟩ := h.ok hrun
    refine ⟨hlater, hout hrun, fun start => ?_⟩
    obtain ⟨answer, hanswer, -⟩ := hothers start
    exact ⟨answer, hanswer, hout hanswer⟩
  error := h.error

theorem Mirrors.extends (h : Mirrors texts F P write other) : write.Extends := by
  intro heap out later hrun
  rw [(h.ok hrun).1]
  exact heap.grows_internAll texts

/-- A writer that succeeded once never fails. -/
theorem Mirrors.never_fails (h : Mirrors texts F P write write) {heap later : StringHeap} {out : α}
    (hrun : write.run heap = .ok out later) :
    Mirrors texts (fun _ => False) P write write where
  ok := h.ok
  error {start _ _} hfault := by
    obtain ⟨_, hanswer, -⟩ := (h.ok hrun).2.2 start
    rw [hanswer] at hfault
    cases hfault

/-- A writer that never fails answers on every heap. -/
theorem Mirrors.exists_run (h : Mirrors texts F P write other)
    (hF : ∀ fault, ¬ F fault) (heap : StringHeap) :
    ∃ out, write.run heap = .ok out (heap.internAll texts) := by
  cases hrun : write.run heap with
  | ok out => exact ⟨out, by rw [(h.ok hrun).1]⟩
  | error fault => exact absurd (h.error hrun) (hF fault)

end Encode

end StackAsm
