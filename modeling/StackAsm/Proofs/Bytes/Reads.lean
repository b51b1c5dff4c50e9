/-
What a reader does with bytes that were written for it. `Reads` says that
a reader takes exactly some bytes off the front of its input, whatever
follows them, and answers a value; `Refuses` says that it fails on every
input that starts with them. What is read back within some limits and
refused past them is decided (`Decides`). All of this is closed under
sequence and repetition, so that a record is read back as soon as its
parts are, and is refused as soon as one of its parts is.

Counts are the exception: a count is accepted only if the records it
announces can all be there, so what it does depends on what follows it
(`Counts`). A counted list of records has the records behind it, and is
read like any other part (`Counts.reads`).
-/
import StackAsm.Bytes.Decode
import StackAsm.Bytes.Encode
import StackAsm.Proofs.Steps

namespace StackAsm

@[simp] theorem length_bytes16 (n : UInt16) : (bytes16 n).length = 2 := length_littleEndian 2 _

@[simp] theorem length_bytes32 (n : UInt32) : (bytes32 n).length = 4 := length_littleEndian 4 _

@[simp] theorem length_bytes64 (n : UInt64) : (bytes64 n).length = 8 := length_littleEndian 8 _

namespace Decode

variable {α β : Type} {bytes : List UInt8} {n : Nat} {parts : List (List UInt8)}

-- ==== the relations

/-- `read` takes `bytes` off the front of any input and answers
`value`. -/
def Reads (read : Decode α) (bytes : List UInt8) (value : α) : Prop :=
  ∀ chunk tail position, read.run ⟨chunk, bytes ++ tail, position⟩
      = .ok value ⟨chunk, tail, position + bytes.length⟩

/-- `read` fails on every input that starts with `bytes`. -/
def Refuses (read : Decode α) (bytes : List UInt8) : Prop :=
  ∀ chunk tail position, ∃ fault later,
    read.run ⟨chunk, bytes ++ tail, position⟩ = .error fault later

/-- An answer that needs no bytes takes none. -/
theorem reads_pure (value : α) : Reads (pure value) [] value := by
  intro chunk tail position
  rfl

/-- Parts that are read back one behind the other are read back
together. -/
theorem Reads.bind {read : Decode α} {next : α → Decode β}
    {more : List UInt8} {a : α} {b : β} (hread : read.Reads bytes a)
    (hnext : (next a).Reads more b) :
    Reads (read >>= next) (bytes ++ more) b := by
  intro chunk tail position
  rw [List.append_assoc, run_bind_of_ok (hread chunk _ position),
    hnext chunk tail, List.length_append, Nat.add_assoc]

/-- The last part of a sequence needs nothing behind it. -/
theorem Reads.map {read : Decode α} {a : α} (hread : read.Reads bytes a)
    (f : α → β) : Reads (read >>= fun x => pure (f x)) bytes (f a) := by
  have h : Reads (read >>= fun x => pure (f x)) (bytes ++ []) (f a) := hread.bind (reads_pure (f a))
  rwa [List.append_nil] at h

/-- Bytes that are refused stay refused whatever follows them. -/
theorem Refuses.append {read : Decode α} (hread : read.Refuses bytes)
    (more : List UInt8) : read.Refuses (bytes ++ more) := by
  intro chunk tail position
  rw [List.append_assoc]
  exact hread chunk _ position

/-- A sequence is refused if its first part is. -/
theorem Refuses.bind {read : Decode α} (hread : read.Refuses bytes)
    (next : α → Decode β) : Refuses (read >>= next) bytes := by
  intro chunk tail position
  obtain ⟨fault, later, h⟩ := hread chunk tail position
  exact ⟨fault, later, run_bind_of_error h⟩

/-- A sequence is refused if what follows a part that is read back
is. -/
theorem Reads.bind_refuses {read : Decode α} {next : α → Decode β}
    {more : List UInt8} {a : α} (hread : read.Reads bytes a) (hnext : (next a).Refuses more) :
    Refuses (read >>= next) (bytes ++ more) := by
  intro chunk tail position
  rw [List.append_assoc, run_bind_of_ok (hread chunk _ position)]
  exact hnext chunk tail _

/-- `read` reads `bytes` back as the value if that fits, and refuses them
if it does not. -/
def Decides (read : Decode α) (bytes : List UInt8) (fits : Prop) (value : α) : Prop :=
  (fits → read.Reads bytes value) ∧ (¬ fits → read.Refuses bytes)

section Decides

variable {read : Decode α} {next : α → Decode β} {more : List UInt8}
  {fits fits' : Prop} {a : α} {b : β}

theorem Reads.decides (h : read.Reads bytes a) : read.Decides bytes True a :=
  ⟨fun _ => h, fun hfalse => absurd trivial hfalse⟩

/-- A sequence fits if its parts do. What follows a part need be known
only where that fits. -/
theorem Decides.bind (h : read.Decides bytes fits a)
    (hnext : fits → (next a).Decides more fits' b) :
    Decides (read >>= next) (bytes ++ more) (fits ∧ fits') b := by
  constructor
  · rintro ⟨hfits, hmore⟩
    exact (h.1 hfits).bind ((hnext hfits).1 hmore)
  · intro hnot
    by_cases hfits : fits
    · exact (h.1 hfits).bind_refuses ((hnext hfits).2 fun hmore => hnot ⟨hfits, hmore⟩)
    · exact ((h.2 hfits).append more).bind next

theorem Reads.bind_decides (h : read.Reads bytes a) (hnext : (next a).Decides more fits b) :
    Decides (read >>= next) (bytes ++ more) fits b :=
  ⟨fun hfits => h.bind (hnext.1 hfits), fun hfits => h.bind_refuses (hnext.2 hfits)⟩

theorem Decides.map (h : read.Decides bytes fits a) (f : α → β) :
    Decides (read >>= fun x => pure (f x)) bytes fits (f a) :=
  ⟨fun hfits => (h.1 hfits).map f, fun hfits => (h.2 hfits).bind _⟩

end Decides

-- ==== numbers

/-- As many bytes as are asked for are taken as they are. -/
theorem reads_exact (bytes : List UInt8) (what : String) :
    Reads (exact bytes.length what) bytes bytes := by
  intro chunk tail position
  have hsplit : splitExactly bytes.length (bytes ++ tail) = some (bytes, tail) := by
    unfold splitExactly
    rw [List.take_left, List.drop_left, if_pos rfl]
  unfold exact
  rw [run_get_bind]
  simp only [hsplit]
  rfl

/-- The same, when the number of bytes is known by another name. -/
theorem reads_exact_of_length {count : Nat} (hlength : bytes.length = count)
    (what : String) : Reads (exact count what) bytes bytes :=
  hlength ▸ reads_exact bytes what

theorem reads_byte (b : UInt8) : Reads byte [b] b := by
  have h := (reads_exact [b] "u8").map fun bytes => UInt8.ofNat (ofLittleEndian bytes)
  have hone : UInt8.ofNat (ofLittleEndian [b]) = b := by
    simp [ofLittleEndian]
  simp only [hone] at h
  exact h

theorem reads_word16 (n : UInt16) : Reads word16 (bytes16 n) n := by
  have h := (reads_exact_of_length (length_bytes16 n) "u16").map
    fun bytes => UInt16.ofNat (ofLittleEndian bytes)
  have hfits : ofLittleEndian (bytes16 n) = n.toNat := ofLittleEndian_littleEndian 2 _ n.toNat_lt
  simp only [hfits, UInt16.ofNat_toNat] at h
  exact h

theorem reads_word32 (n : UInt32) : Reads word32 (bytes32 n) n := by
  have h := (reads_exact_of_length (length_bytes32 n) "u32").map
    fun bytes => UInt32.ofNat (ofLittleEndian bytes)
  have hfits : ofLittleEndian (bytes32 n) = n.toNat := ofLittleEndian_littleEndian 4 _ n.toNat_lt
  simp only [hfits, UInt32.ofNat_toNat] at h
  exact h

/-- A number that fits two bytes is read back as such. -/
theorem reads_littleEndian16 (hfits : n < UInt16.size) :
    Reads word16 (littleEndian 2 n) (UInt16.ofNat n) := by
  have h := reads_word16 (UInt16.ofNat n)
  unfold bytes16 at h
  rwa [UInt16.toNat_ofNat_of_lt' hfits] at h

/-- A number that fits four bytes is read back as such. -/
theorem reads_littleEndian32 (hfits : n < UInt32.size) :
    Reads word32 (littleEndian 4 n) (UInt32.ofNat n) := by
  have h := reads_word32 (UInt32.ofNat n)
  unfold bytes32 at h
  rwa [UInt32.toNat_ofNat_of_lt' hfits] at h

theorem reads_word64 (n : UInt64) : Reads word64 (bytes64 n) n := by
  have h := (reads_exact_of_length (length_bytes64 n) "u64").map
    fun bytes => UInt64.ofNat (ofLittleEndian bytes)
  have hfits : ofLittleEndian (bytes64 n) = n.toNat := ofLittleEndian_littleEndian 8 _ n.toNat_lt
  simp only [hfits, UInt64.ofNat_toNat] at h
  exact h

-- ==== repetition

/-- `read` is told how often it ran before, and reads each of the parts
back as the value that has its place. -/
structure ReadsEach (read : Nat → Decode α) (parts : List (List UInt8))
    (values : List α) : Prop where
  length_eq : parts.length = values.length
  reads : ∀ i part value, parts[i]? = some part →
    values[i]? = some value → (read i).Reads part value

/-- The first part is read first, the others after it. -/
theorem ReadsEach.cons_iff {read : Nat → Decode α} {part : List UInt8}
    {value : α} {values : List α} :
    ReadsEach read (part :: parts) (value :: values)
      ↔ (read 0).Reads part value
        ∧ ReadsEach (fun i => read (i + 1)) parts values := by
  constructor
  · rintro ⟨hlength, hreads⟩
    refine ⟨hreads 0 part value rfl rfl, by simpa using hlength, ?_⟩
    intro i part' value' hpart hvalue
    exact hreads (i + 1) part' value' (by simpa using hpart) (by simpa using hvalue)
  · rintro ⟨_, hlength, hrest⟩
    refine ⟨by simp [hlength], ?_⟩
    intro i part' value' hpart hvalue
    cases i with
    | zero =>
      rw [List.getElem?_cons_zero, Option.some.injEq] at hpart hvalue
      rwa [← hpart, ← hvalue]
    | succ i =>
      rw [List.getElem?_cons_succ] at hpart hvalue
      exact hrest i part' value' hpart hvalue

/-- Repeated reading, with its first turn set apart. -/
theorem times_succ (count : Nat) (read : Nat → Decode α) :
    times (count + 1) read = read 0 >>= fun first =>
          (times count fun i => read (i + 1)) >>= fun rest =>
            pure (first :: rest) := by
  unfold times
  rw [List.range_succ_eq_map, List.mapM_cons, List.mapM_map]
  rfl

/-- Repeated reading reads back what each of its turns does. -/
theorem ReadsEach.times {read : Nat → Decode α} {values : List α}
    (h : ReadsEach read parts values) :
    Reads (times parts.length read) parts.flatten values := by
  induction parts generalizing read values with
  | nil =>
    have hnil : values = [] := List.eq_nil_of_length_eq_zero h.length_eq.symm
    subst hnil
    exact reads_pure []
  | cons part parts ih =>
    cases values with
    | nil => exact absurd h.length_eq (by simp)
    | cons value =>
      obtain ⟨hfirst, hrest⟩ := ReadsEach.cons_iff.1 h
      rw [List.length_cons, times_succ, List.flatten_cons]
      refine hfirst.bind ?_
      exact (ih hrest).map fun rest => value :: rest

/-- Each of the parts has at least `size` bytes, and is read back as the
value of its item if that fits. -/
def DecidesEach (read : Decode α) (size : Nat) (parts : List (List UInt8))
    (items : List (Prop × α)) : Prop :=
  List.Forall₂ (fun item part =>
    size ≤ part.length ∧ read.Decides part item.1 item.2) items parts

theorem DecidesEach.append {read : Decode α} {size : Nat}
    {parts' : List (List UInt8)} {items items' : List (Prop × α)}
    (h : DecidesEach read size parts items) (h' : DecidesEach read size parts' items') :
    DecidesEach read size (parts ++ parts') (items ++ items') := List.rel_append h h'

/-- Repeated reading decides as each of its turns does. -/
theorem DecidesEach.times {read : Decode α} {size : Nat}
    {items : List (Prop × α)} (h : DecidesEach read size parts items) :
    Decides (times items.length fun _ => read) parts.flatten
      (∀ item ∈ items, item.1) (items.map (·.2)) := by
  induction h with
  | nil =>
    exact ⟨fun _ => reads_pure [], fun hnot => absurd nofun hnot⟩
  | cons hpart _ ih =>
    rw [List.length_cons, times_succ, List.flatten_cons, List.forall_mem_cons, List.map_cons]
    exact hpart.2.bind fun _ => ih.map fun rest => _ :: rest

-- ==== counts

/-- `count` reads the number `n` out of `head` on any input that has room
for `n` records of `size` bytes behind it. -/
def Counts (count : Decode Nat) (size : Nat) (head : List UInt8) (n : Nat) : Prop :=
  ∀ chunk tail position, n * size ≤ tail.length → count.run ⟨chunk, head ++ tail, position⟩
      = .ok n ⟨chunk, tail, position + head.length⟩

/-- A count over the limit never passes. -/
theorem run_checkCount_error (hlimit : countLimit < n) (size : Nat)
    (what : String) (input : ByteInput) :
    (checkCount n size what).run input = .error (.invalid input.chunk (.tooMany what n)) input := by
  unfold checkCount
  rw [if_pos hlimit]
  rfl

/-- A count is passed on exactly if it is under the limit and its records
can all be there. -/
theorem run_checkCount_ok_iff {size count : Nat} {input later : ByteInput}
    {what : String} : (checkCount count size what).run input = .ok n later
      ↔ n = count ∧ later = input ∧ count ≤ countLimit
        ∧ min (count * size) (UInt64.size - 1) ≤ input.rest.length := by
  constructor
  · intro h
    by_cases hlimit : countLimit < count
    · rw [run_checkCount_error hlimit] at h
      cases h
    · unfold checkCount at h
      rw [if_neg hlimit, run_get_bind] at h
      by_cases hshort : isShorter input.rest (min (count * size) (UInt64.size - 1)) = true
      · simp only [if_pos hshort] at h
        cases h
      · simp only [if_neg hshort] at h
        cases h
        rw [isShorter_eq, decide_eq_true_eq] at hshort
        exact ⟨rfl, rfl, Nat.le_of_not_lt hlimit, Nat.le_of_not_lt hshort⟩
  · rintro ⟨rfl, rfl, hlimit, _⟩
    have hlong : isShorter later.rest (min (n * size) (UInt64.size - 1)) = false := by
      rw [isShorter_eq, decide_eq_false_iff_not]
      omega
    unfold checkCount
    rw [if_neg (Nat.not_lt.2 hlimit), run_get_bind]
    simp only [hlong]
    rfl

theorem counts_count32 (hlimit : n ≤ countLimit) (size : Nat) (what : String) :
    Counts (count32 size what) size (littleEndian 4 n) n := by
  intro chunk tail position hroom
  have hfits : n < UInt32.size := Nat.lt_of_le_of_lt hlimit (by decide)
  have hword := reads_littleEndian32 hfits
  unfold count32
  rw [run_bind_of_ok (hword chunk tail position), UInt32.toNat_ofNat_of_lt' hfits]
  exact run_checkCount_ok_iff.2 ⟨rfl, rfl, hlimit, Nat.le_trans (Nat.min_le_left ..) hroom⟩

theorem counts_count16 (hfits : n < UInt16.size) (size : Nat) (what : String) :
    Counts (count16 size what) size (littleEndian 2 n) n := by
  intro chunk tail position hroom
  have hlimit : n ≤ countLimit := Nat.le_trans (Nat.le_of_lt hfits) (by decide)
  have hword := reads_littleEndian16 hfits
  unfold count16
  rw [run_bind_of_ok (hword chunk tail position), UInt16.toNat_ofNat_of_lt' hfits]
  exact run_checkCount_ok_iff.2 ⟨rfl, rfl, hlimit, Nat.le_trans (Nat.min_le_left ..) hroom⟩

theorem refuses_count32 (hlimit : countLimit < n) (hfits : n < UInt32.size)
    (size : Nat) (what : String) :
    Refuses (count32 size what) (littleEndian 4 n) := by
  intro chunk tail position
  have hword := reads_littleEndian32 hfits
  have hrun : (count32 size what).run ⟨chunk, littleEndian 4 n ++ tail, position⟩
      = (checkCount n size what).run
        ⟨chunk, tail, position + (littleEndian 4 n).length⟩ := by
    unfold count32
    rw [run_bind_of_ok (hword chunk tail position), UInt32.toNat_ofNat_of_lt' hfits]
  rw [run_checkCount_error hlimit] at hrun
  exact ⟨_, _, hrun⟩

/-- A list of records of at least `size` bytes each is as long as its
count announces. -/
theorem length_flatten_ge {size : Nat} (hsize : ∀ part ∈ parts, size ≤ part.length) :
    parts.length * size ≤ parts.flatten.length := by
  induction parts with
  | nil => simp
  | cons part parts ih =>
    have hpart := hsize part (.head _)
    have hrest := ih fun other hother =>
      hsize other (.tail _ hother)
    rw [List.length_cons, Nat.succ_mul, List.flatten_cons, List.length_append]
    omega

section Counted

variable {count : Decode Nat} {size : Nat} {head : List UInt8}
  {read : Nat → Decode α} {parts : List (List UInt8)} {values : List α} {next : List α → Decode β}

/-- Behind a counted list of records goes on what was to follow it. -/
theorem Counts.run_bind (hcount : Counts count size head parts.length)
    (hsize : ∀ part ∈ parts, size ≤ part.length)
    (hparts : ReadsEach read parts values) (chunk : String) (tail : List UInt8) (position : Nat) :
    (count >>= fun n => times n read >>= next).run
        ⟨chunk, head ++ (parts.flatten ++ tail), position⟩
      = (next values).run
        ⟨chunk, tail, position + head.length + parts.flatten.length⟩ := by
  have hroom : parts.length * size ≤ (parts.flatten ++ tail).length := by
    have hlong := length_flatten_ge hsize
    rw [List.length_append]
    omega
  rw [run_bind_of_ok (hcount chunk _ position hroom), run_bind_of_ok (hparts.times chunk tail _)]

/-- A counted list of records is read back with all its records. -/
theorem Counts.reads {more : List UInt8} {b : β} (hcount : Counts count size head parts.length)
    (hsize : ∀ part ∈ parts, size ≤ part.length) (hparts : ReadsEach read parts values)
    (hnext : (next values).Reads more b) :
    Reads (count >>= fun n => times n read >>= next) (head ++ (parts.flatten ++ more)) b := by
  intro chunk tail position
  rw [List.append_assoc, List.append_assoc, hcount.run_bind hsize hparts, hnext]
  simp only [List.length_append, Nat.add_assoc]

/-- A counted list of records is decided by its count and by each of
them. -/
theorem DecidesEach.counted {each : Decode α} {items : List (Prop × α)}
    (h : DecidesEach each size parts items) (hlength : items.length = n)
    (hfits : n < UInt32.size) (what : String) (f : List α → β) :
    Decides (count32 size what >>= fun n =>
        Decode.times n (fun _ => each) >>= fun values => pure (f values))
      (littleEndian 4 n ++ parts.flatten)
      (n ≤ countLimit ∧ ∀ item ∈ items, item.1) (f (items.map (·.2))) := by
  subst hlength
  have hroom : items.length * size ≤ parts.flatten.length := by
    rw [List.Forall₂.length_eq h]
    exact length_flatten_ge (forall_mem_of_forall₂ h fun _ _ _ hpart => hpart.1)
  by_cases hlimit : items.length ≤ countLimit
  · have hall := h.times.map f
    have hrun : ∀ chunk tail position, _ := fun chunk tail position =>
      counts_count32 hlimit size what chunk (parts.flatten ++ tail) position
        (by rw [List.length_append]; omega)
    refine ⟨fun hitems chunk tail position => ?_, fun hitems chunk tail position => ?_⟩
    · rw [List.append_assoc, run_bind_of_ok (hrun chunk tail position),
        hall.1 hitems.2, List.length_append, Nat.add_assoc]
    · rw [List.append_assoc, run_bind_of_ok (hrun chunk tail position)]
      exact hall.2 (fun hfit => hitems ⟨hlimit, hfit⟩) chunk tail _
  · have hcount := refuses_count32 (Nat.lt_of_not_le hlimit) hfits size what
    exact ⟨fun hitems => absurd hitems.1 hlimit, fun _ => (hcount.append _).bind _⟩

end Counted

end Decode

end StackAsm
