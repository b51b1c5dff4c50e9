/-
How readers go over their input. `Yields` says of a reader that the bytes
it takes off the front of its input and the value it answers belong
together. Nothing is assumed about the bytes: this is what can be said of
files that nobody may have written.

It also says that the reader is steady: the end of the input matters to it
in one way only. Where bytes are missing it says that the input ended.
Given more bytes, it reads what it read before; given fewer, it either
still reads the same or reports the end of the input. A file read by such
a reader that may leave nothing behind therefore stands alone: none of its
prefixes is a file, and neither is any longer list of bytes
(`Steady.whole_cut`, `Steady.whole_extended`).

Such facts go through sequences and repetitions as they do through single
numbers, so a fact about records follows from the same fact about their
parts.
-/
import Mathlib.Algebra.GroupWithZero.Nat
import StackAsm.Proofs.Bytes.Heap

namespace StackAsm

-- ==== texts

/-- A text whose length fits the four bytes it is stored in. -/
def Text.Storable (text : String) : Prop := text.utf8ByteSize < UInt32.size

/-- A heap whose texts can all be stored. -/
def StringHeap.Storable (heap : StringHeap) : Prop := ∀ text ∈ heap.entries, Text.Storable text

/-- The input with more bytes behind it. -/
def ByteInput.extend (input : ByteInput) (more : List UInt8) : ByteInput :=
  { input with rest := input.rest ++ more }

namespace Decode

variable {α β : Type} {count : Nat} {what : String} {input : ByteInput}

-- ==== first steps

/-- Bytes are taken exactly if that many are there. -/
theorem run_exact_ok_iff {later : ByteInput} {taken : List UInt8} :
    (exact count what).run input = .ok taken later
      ↔ taken.length = count ∧ input.rest = taken ++ later.rest
        ∧ later.chunk = input.chunk
        ∧ later.position = input.position + count := by
  constructor
  · intro h
    unfold exact at h
    rw [run_get_bind] at h
    unfold splitExactly at h
    by_cases hlength : (input.rest.take count).length = count
    · simp only [if_pos hlength] at h
      cases h
      exact ⟨hlength, (List.take_append_drop _ _).symm, rfl, rfl⟩
    · simp only [if_neg hlength] at h
      split at h <;> cases h
  · rintro ⟨rfl, hrest, hchunk, hposition⟩
    obtain ⟨_, _, position⟩ := input
    obtain ⟨chunk', tail, _⟩ := later
    simp only at hrest hchunk hposition
    subst hrest hchunk hposition
    exact reads_exact taken what chunk' tail position

/-- Where bytes are missing, the input ended too early. -/
theorem run_exact_of_short (hcount : count < UInt32.size) (hshort : input.rest.length < count) :
    (exact count what).run input = .error (.endOfInput (input.chunk ++ " " ++ what)) input := by
  have hsplit : splitExactly count input.rest = none := by
    unfold splitExactly
    rw [if_neg]
    rw [List.length_take]
    omega
  have hnear : ¬ min input.position lastPosition + count ≥ UInt64.size := by
    simp only [lastPosition, UInt64.size, UInt32.size] at *
    omega
  unfold exact
  rw [run_get_bind]
  simp only [hsplit, if_neg hnear]
  rfl

-- ==== the end of the input

/-- Reading ended because bytes are missing. -/
def EndsEarly (read : Decode α) (input : ByteInput) : Prop :=
  ∃ context stop, read.run input = .error (.endOfInput context) stop

/-- Nothing but missing bytes makes a difference between an input and the
same input with more bytes behind it. -/
structure Steady (read : Decode α) : Prop where
  chunk_eq : ∀ {input value later}, read.run input = .ok value later → later.chunk = input.chunk
  position_eq : ∀ {input value later}, read.run input = .ok value later →
    later.position + later.rest.length = input.position + input.rest.length
  extended : ∀ {input value later}, read.run input = .ok value later →
    ∀ more, read.run (input.extend more) = .ok value (later.extend more)
  cut : ∀ {input more value later}, read.run (input.extend more) = .ok value later →
      read.EndsEarly input ∨ ∃ stop, later = stop.extend more ∧ read.run input = .ok value stop

section Relation

variable {read : Decode α} {next : α → Decode β}

theorem steady_pure (value : α) : Steady (pure value) where
  chunk_eq h := by
    obtain ⟨-, rfl⟩ := run_pure_ok_iff.1 h
    rfl
  position_eq h := by
    obtain ⟨-, rfl⟩ := run_pure_ok_iff.1 h
    rfl
  extended h more := by
    obtain ⟨rfl, rfl⟩ := run_pure_ok_iff.1 h
    exact run_pure_ok_iff.2 ⟨rfl, rfl⟩
  cut h := by
    obtain ⟨rfl, rfl⟩ := run_pure_ok_iff.1 h
    exact .inr ⟨_, rfl, run_pure_ok_iff.2 ⟨rfl, rfl⟩⟩

/-- Readers that never end well are steady. -/
theorem steady_of_fails (hfails : ∀ input value later, read.run input ≠ .ok value later) :
    Steady read where
  chunk_eq h := absurd h (hfails _ _ _)
  position_eq h := absurd h (hfails _ _ _)
  extended h := absurd h (hfails _ _ _)
  cut h := absurd h (hfails _ _ _)

theorem Steady.bind (hread : read.Steady)
    (hnext : ∀ {input a later}, read.run input = .ok a later →
      (next a).Steady) : Steady (read >>= next) where
  chunk_eq h := by
    obtain ⟨a, middle, ha, h⟩ := run_bind_ok_iff.1 h
    rw [(hnext ha).chunk_eq h, hread.chunk_eq ha]
  position_eq h := by
    obtain ⟨a, middle, ha, h⟩ := run_bind_ok_iff.1 h
    rw [(hnext ha).position_eq h, hread.position_eq ha]
  extended h more := by
    obtain ⟨a, middle, ha, h⟩ := run_bind_ok_iff.1 h
    rw [run_bind_of_ok (hread.extended ha more)]
    exact (hnext ha).extended h more
  cut h := by
    obtain ⟨a, middle, ha, h⟩ := run_bind_ok_iff.1 h
    rcases hread.cut ha with ⟨context, stop, hend⟩ | ⟨_, rfl, hfirst⟩
    · exact .inl ⟨context, stop, run_bind_of_error hend⟩
    · -- The first part ends before the cut, so the cut is in the second.
      unfold EndsEarly
      rw [run_bind_of_ok hfirst]
      exact (hnext ha).cut h

end Relation

-- ==== the relation

/-- The reader is steady, and whenever it ends well, what it took off the
front of its input and what it answers are so related. -/
structure Yields (read : Decode α) (G : List UInt8 → α → Prop) : Prop extends Steady read where
  took : ∀ {input value later}, read.run input = .ok value later →
    ∃ bytes, input.rest = bytes ++ later.rest ∧ G bytes value

section Relation

variable {read : Decode α} {next : α → Decode β}
  {G G' : List UInt8 → α → Prop} {H : List UInt8 → β → Prop}

theorem yields_pure {value : α} (h : G [] value) : Yields (pure value) G where
  toSteady := steady_pure value
  took hrun := by
    obtain ⟨rfl, rfl⟩ := run_pure_ok_iff.1 hrun
    exact ⟨[], rfl, h⟩

/-- Nothing has to be shown of a reader that always fails. -/
theorem yields_of_fails (hfails : ∀ input value later, read.run input ≠ .ok value later) :
    read.Yields G where
  toSteady := steady_of_fails hfails
  took hrun := absurd hrun (hfails _ _ _)

theorem yields_throw (fault : FormatFault) :
    Yields (throw fault : Decode α) G := yields_of_fails fun _ _ _ h => nomatch h

theorem yields_invalid (detail : FormatDetail) :
    Yields (invalid detail : Decode α) G := yields_of_fails fun _ _ _ h => nomatch h

theorem Yields.bind (hread : read.Yields G)
    (hnext : ∀ a front, G front a → (next a).Yields fun back b => H (front ++ back) b) :
    Yields (read >>= next) H where
  toSteady := by
    refine hread.toSteady.bind fun ha => ?_
    obtain ⟨front, -, hG⟩ := hread.took ha
    exact (hnext _ front hG).toSteady
  took hrun := by
    obtain ⟨a, _, ha, hrun⟩ := run_bind_ok_iff.1 hrun
    obtain ⟨front, hfront, hG⟩ := hread.took ha
    obtain ⟨back, hback, hH⟩ := (hnext a front hG).took hrun
    exact ⟨front ++ back, by rw [hfront, hback, List.append_assoc], hH⟩

theorem Yields.imp (hread : read.Yields G) (himp : ∀ bytes value, G bytes value → G' bytes value) :
    read.Yields G' where
  toSteady := hread.toSteady
  took hrun := by
    obtain ⟨bytes, hbytes, hG⟩ := hread.took hrun
    exact ⟨bytes, hbytes, himp _ _ hG⟩

/-- The last part of a sequence takes nothing more. -/
theorem Yields.map (hread : read.Yields G) {f : α → β}
    (himp : ∀ bytes a, G bytes a → H bytes (f a)) :
    Yields (read >>= fun a => pure (f a)) H := by
  refine hread.bind fun _ _ hG => yields_pure ?_
  rw [List.append_nil]
  exact himp _ _ hG

/-- Looking at what was read takes nothing more. -/
theorem Yields.check {B : List UInt8 → Prop} (hread : read.Yields fun bytes _ => B bytes)
    (hnext : ∀ a, (next a).Yields fun bytes _ => bytes = []) :
    Yields (read >>= next) fun bytes _ => B bytes := by
  refine hread.bind fun a _ _ => (hnext a).imp ?_
  rintro _ _ rfl
  rwa [List.append_nil]

end Relation

-- ==== repetition

/-- Bytes that fall into parts, one for each of the values. -/
def InParts (G : List UInt8 → α → Prop) (bytes : List UInt8) (values : List α) : Prop :=
  ∃ parts, bytes = parts.flatten ∧ List.Forall₂ G parts values

namespace InParts

variable {G : List UInt8 → α → Prop} {bytes part : List UInt8} {values : List α} {value : α}

theorem nil : InParts G [] [] := ⟨[], rfl, .nil⟩

theorem cons (hpart : G part value) (h : InParts G bytes values) :
    InParts G (part ++ bytes) (value :: values) := by
  obtain ⟨parts, rfl, hparts⟩ := h
  exact ⟨part :: parts, rfl, .cons hpart hparts⟩

/-- What holds of nothing, and still holds with one more part in front,
holds of all parts. -/
theorem induction {motive : List UInt8 → List α → Prop} (hnil : motive [] [])
    (hcons : ∀ part value bytes values, G part value →
      motive bytes values → motive (part ++ bytes) (value :: values))
    (h : InParts G bytes values) : motive bytes values := by
  obtain ⟨_, rfl, hparts⟩ := h
  induction hparts with
  | nil => exact hnil
  | cons hpart hparts ih => exact hcons _ _ _ _ hpart ih

theorem forall_mem {P : α → Prop} (himp : ∀ part value, G part value → P value)
    (h : InParts G bytes values) : ∀ value ∈ values, P value := by
  refine induction (motive := fun _ values => ∀ value ∈ values, P value)
    nofun (fun _ value _ values hpart ih => ?_) h
  exact List.forall_mem_cons.2 ⟨himp _ _ hpart, ih⟩

theorem length_eq {size : α → Nat} (himp : ∀ part value, G part value → part.length = size value)
    (h : InParts G bytes values) :
    bytes.length = (values.map size).sum := by
  refine induction (motive := fun bytes values =>
    bytes.length = (values.map size).sum) rfl ?_ h
  intro part value bytes values hpart ih
  rw [List.length_append, himp _ _ hpart, ih, List.map_cons, List.sum_cons]

/-- Parts of one size. -/
theorem length_eq_mul {size : Nat} (himp : ∀ part value, G part value → part.length = size)
    (h : InParts G bytes values) : bytes.length = values.length * size := by
  rw [h.length_eq himp, List.map_const', List.sum_replicate_nat]

end InParts

/-- Reading again and again takes one part for each answer. -/
theorem yields_times {read : Nat → Decode α} {G : List UInt8 → α → Prop}
    (hread : ∀ i, (read i).Yields G) (count : Nat) :
    (times count read).Yields fun bytes values =>
      InParts G bytes values ∧ values.length = count := by
  induction count generalizing read with
  | zero => exact yields_pure ⟨.nil, rfl⟩
  | succ count ih =>
    rw [times_succ]
    refine (hread 0).bind fun _ _ hfirst => ?_
    refine (ih fun i => hread (i + 1)).map ?_
    rintro _ _ ⟨hparts, rfl⟩
    exact ⟨hparts.cons hfirst, rfl⟩

-- ==== numbers

theorem steady_exact (hcount : count < UInt32.size) (what : String) :
    Steady (exact count what) where
  chunk_eq h := (run_exact_ok_iff.1 h).2.2.1
  position_eq h := by
    obtain ⟨hlength, hrest, -, hposition⟩ := run_exact_ok_iff.1 h
    rw [hrest, hposition, List.length_append, hlength]
    omega
  extended h more := by
    obtain ⟨hlength, hrest, hchunk, hposition⟩ := run_exact_ok_iff.1 h
    refine run_exact_ok_iff.2 ⟨hlength, ?_, hchunk, hposition⟩
    show _ ++ more = _ ++ (_ ++ more)
    rw [hrest, List.append_assoc]
  cut {input more taken later} h := by
    obtain ⟨hlength, hrest, hchunk, hposition⟩ := run_exact_ok_iff.1 h
    by_cases hshort : input.rest.length < count
    · exact .inl ⟨_, _, run_exact_of_short hcount hshort⟩
    · -- All of the bytes lie in front of the cut.
      have hsplit : taken <+: input.rest := by
        refine List.prefix_of_prefix_length_le ⟨_, hrest.symm⟩ (List.prefix_append _ _) ?_
        omega
      obtain ⟨tail, htail⟩ := hsplit
      refine .inr ⟨⟨input.chunk, tail, input.position + count⟩, ?_,
        run_exact_ok_iff.2 ⟨hlength, htail.symm, rfl, rfl⟩⟩
      have hlater : later.rest = tail ++ more := by
        have hboth : taken ++ (tail ++ more) = taken ++ later.rest := by
          rw [← List.append_assoc, htail]
          exact hrest
        exact (List.append_cancel_left hboth).symm
      obtain ⟨_, _, _⟩ := later
      simp only at hlater hchunk hposition
      rw [hlater, hchunk, hposition]
      rfl

theorem yields_exact (hcount : count < UInt32.size) (what : String) :
    (exact count what).Yields fun bytes taken =>
      taken = bytes ∧ bytes.length = count where
  toSteady := steady_exact hcount what
  took hrun := by
    obtain ⟨hlength, hrest, -, -⟩ := run_exact_ok_iff.1 hrun
    exact ⟨_, hrest, rfl, hlength⟩

theorem yields_byte : byte.Yields fun bytes _ => bytes.length = 1 :=
  (yields_exact (by decide) "u8").map fun _ _ h => h.2

theorem yields_word16 : word16.Yields fun bytes _ => bytes.length = 2 :=
  (yields_exact (by decide) "u16").map fun _ _ h => h.2

theorem yields_word32 : word32.Yields fun bytes _ => bytes.length = 4 :=
  (yields_exact (by decide) "u32").map fun _ _ h => h.2

theorem yields_word64 : word64.Yields fun bytes _ => bytes.length = 8 :=
  (yields_exact (by decide) "u64").map fun _ _ h => h.2

-- ==== counts

/-- A count looks at how many bytes are left, but takes none. -/
theorem steady_checkCount (count size : Nat) (what : String) :
    Steady (checkCount count size what) where
  chunk_eq h := by rw [(run_checkCount_ok_iff.1 h).2.1]
  position_eq h := by rw [(run_checkCount_ok_iff.1 h).2.1]
  extended {input n later} h more := by
    obtain ⟨rfl, rfl, hlimit, hroom⟩ := run_checkCount_ok_iff.1 h
    refine run_checkCount_ok_iff.2 ⟨rfl, rfl, hlimit, ?_⟩
    show _ ≤ (later.rest ++ more).length
    rw [List.length_append]
    omega
  cut {input more n later} h := by
    obtain ⟨rfl, rfl, hlimit, -⟩ := run_checkCount_ok_iff.1 h
    by_cases hroom : min (n * size) (UInt64.size - 1) ≤ input.rest.length
    · exact .inr ⟨input, rfl, run_checkCount_ok_iff.2 ⟨rfl, rfl, hlimit, hroom⟩⟩
    · left
      have hshort : isShorter input.rest (min (n * size) (UInt64.size - 1)) = true := by
        rw [isShorter_eq, decide_eq_true_eq]
        omega
      unfold EndsEarly checkCount
      rw [if_neg (Nat.not_lt.2 hlimit), run_get_bind]
      simp only [if_pos hshort]
      exact ⟨_, _, rfl⟩

theorem yields_checkCount (count size : Nat) (what : String) :
    (checkCount count size what).Yields fun bytes n =>
      bytes = [] ∧ n = count ∧ n ≤ countLimit where
  toSteady := steady_checkCount count size what
  took hrun := by
    obtain ⟨rfl, rfl, hlimit, -⟩ := run_checkCount_ok_iff.1 hrun
    exact ⟨[], rfl, rfl, rfl, hlimit⟩

theorem yields_count32 (size : Nat) (what : String) : (count32 size what).Yields fun bytes n =>
      bytes.length = 4 ∧ n ≤ countLimit := by
  refine yields_word32.bind fun word _ hfront => ?_
  refine (yields_checkCount word.toNat size what).imp ?_
  rintro _ _ ⟨rfl, -, hlimit⟩
  rw [List.append_nil]
  exact ⟨hfront, hlimit⟩

theorem yields_count16 (size : Nat) (what : String) : (count16 size what).Yields fun bytes n =>
      bytes.length = 2 ∧ n < UInt16.size := by
  refine yields_word16.bind fun word _ hfront => ?_
  refine (yields_checkCount word.toNat size what).imp ?_
  rintro _ _ ⟨rfl, rfl, -⟩
  rw [List.append_nil]
  exact ⟨hfront, word.toNat_lt⟩

-- ==== texts

/-- A text is as long as its length says, which fits four bytes. -/
theorem yields_string : string.Yields fun bytes text =>
      4 ≤ bytes.length ∧ Text.Storable text := by
  refine yields_word32.bind fun count _ _ => ?_
  refine (yields_exact count.toNat_lt _).bind ?_
  rintro taken _ ⟨rfl, hback⟩
  split
  · rename_i text htext
    refine yields_pure ⟨?_, ?_⟩
    · simp only [List.length_append]
      omega
    · have hsize : text.utf8ByteSize = taken.length := by
        unfold String.fromUTF8? at htext
        split at htext
        · cases htext
          rfl
        · cases htext
      show text.utf8ByteSize < UInt32.size
      rw [hsize, hback]
      exact count.toNat_lt
  · refine yields_of_fails fun _ text _ h => ?_
    cases h

theorem yields_heapText (heap : StringHeap) (index : UInt32) :
    (heapText heap index).Yields fun bytes text =>
      bytes = [] ∧ text ∈ heap.entries := by
  unfold heapText
  split
  · rename_i text htext
    exact yields_pure ⟨rfl, Array.mem_of_getElem? htext⟩
  · exact yields_throw _

theorem yields_heapString (heap : StringHeap) : (heapString heap).Yields fun bytes text =>
      bytes.length = 4 ∧ text ∈ heap.entries := by
  refine yields_word32.bind fun index _ hfront => ?_
  refine (yields_heapText heap index).imp ?_
  rintro _ _ ⟨rfl, htext⟩
  rw [List.append_nil]
  exact ⟨hfront, htext⟩

theorem yields_heapString? (heap : StringHeap) : (heapString? heap).Yields fun bytes text? =>
      bytes.length = 4 ∧ ∀ text ∈ text?, text ∈ heap.entries := by
  refine yields_word32.bind fun index _ hfront => ?_
  split
  · refine yields_pure ⟨?_, nofun⟩
    rw [List.append_nil]
    exact hfront
  · refine (yields_heapText heap index).map ?_
    rintro _ _ ⟨rfl, htext⟩
    rw [List.append_nil]
    refine ⟨hfront, fun _ hother => ?_⟩
    obtain rfl := Option.some.inj hother
    exact htext

/-- The texts of a heap that was read have lengths that fit. -/
theorem yields_heap : heap.Yields fun _ heap => heap.Storable := by
  refine (yields_count32 4 _).bind fun count _ _ => ?_
  refine (yields_times (fun _ => yields_string) count).map ?_
  rintro _ _ ⟨hparts, -⟩ text htext
  have hall := hparts.forall_mem fun _ text h => h.2
  exact hall text (List.mem_toArray.1 htext)

-- ==== whole files

/-- Nothing is left exactly if the file ends here. -/
theorem run_finish (input : ByteInput) : finish.run input = if input.rest = [] then .ok () input
        else .error (.invalid input.chunk .trailingBytes) input := by
  obtain ⟨_, rest, _⟩ := input
  cases rest <;> rfl

section Whole

variable {read : Decode α} {f : α → β} {chunk : String}
  {bytes more : List UInt8} {position : Nat} {value : β} {later : ByteInput}

/-- What it means that a whole file was read. -/
theorem run_whole_ok_iff :
    (do let a ← read; finish; return f a : Decode β).run input
        = .ok value later
      ↔ ∃ a, read.run input = .ok a later ∧ later.rest = [] ∧ f a = value := by
  constructor
  · intro h
    obtain ⟨a, _, ha, h⟩ := run_bind_ok_iff.1 h
    obtain ⟨_, _, hfinish, h⟩ := run_bind_ok_iff.1 h
    obtain ⟨hvalue, rfl⟩ := run_pure_ok_iff.1 h
    rw [run_finish] at hfinish
    split at hfinish
    · rename_i hrest
      cases hfinish
      exact ⟨a, ha, hrest, hvalue⟩
    · cases hfinish
  · rintro ⟨a, ha, hrest, rfl⟩
    rw [run_bind_of_ok ha]
    refine run_bind_ok_iff.2 ⟨(), later, ?_, rfl⟩
    rw [run_finish, if_pos hrest]

/-- A file that was cut short ends too early, wherever it was cut. -/
theorem Steady.whole_cut (hread : read.Steady) (hmore : more ≠ [])
    (h : (do let a ← read; finish; return f a : Decode β).run
      ⟨chunk, bytes ++ more, position⟩ = .ok value later) :
    EndsEarly (do let a ← read; finish; return f a : Decode β)
      ⟨chunk, bytes, position⟩ := by
  obtain ⟨_, ha, hrest, -⟩ := run_whole_ok_iff.1 h
  rcases @Steady.cut _ _ hread ⟨chunk, bytes, position⟩ _ _ _ ha with
    ⟨context, stop, hend⟩ | ⟨stop, rfl, -⟩
  · exact ⟨context, stop, run_bind_of_error hend⟩
  · exact absurd (List.append_eq_nil_iff.1 hrest).2 hmore

/-- A file with bytes behind its end is refused for them. -/
theorem Steady.whole_extended (hread : read.Steady) (hmore : more ≠ [])
    (h : (do let a ← read; finish; return f a : Decode β).run
      ⟨chunk, bytes, position⟩ = .ok value later) :
    ∃ stop, (do let a ← read; finish; return f a : Decode β).run
      ⟨chunk, bytes ++ more, position⟩ = .error (.invalid chunk .trailingBytes) stop := by
  obtain ⟨a, ha, hrest, -⟩ := run_whole_ok_iff.1 h
  have hlonger := hread.extended ha more
  have hleft : (later.extend more).rest ≠ [] := by
    show later.rest ++ more ≠ []
    rwa [hrest, List.nil_append]
  refine ⟨later.extend more, ?_⟩
  show (read >>= fun a => finish >>= fun _ => pure (f a)).run
    (ByteInput.extend ⟨chunk, bytes, position⟩ more) = _
  rw [run_bind_of_ok hlonger]
  refine run_bind_of_error ?_
  rw [run_finish, if_neg hleft]
  have hchunk : (later.extend more).chunk = chunk := hread.chunk_eq ha
  rw [hchunk]

end Whole

end Decode

end StackAsm
