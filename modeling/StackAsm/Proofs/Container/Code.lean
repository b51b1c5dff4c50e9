/-
Method code, written and read back. Instructions stand one behind the
other, so the place of each is the sum of the widths before it
(`offsetsFrom`). Widths are positive, hence no two instructions share a
place and a label's byte offset leads back to the one instruction it
marks (`placeTable_offsetsFrom`); the offset of the end is a place too.
-/
import StackAsm.Container.Read
import StackAsm.Program.References
import StackAsm.Proofs.Container.Opcodes
import StackAsm.Proofs.Container.Operand

namespace StackAsm

open Encode Decode

variable {instructions : List Instruction}

-- ==== operands

namespace Form

variable {form : Form} {operands : List Operand}

/-- A position accepts a label with or without its target. -/
theorem accepts_unaimed (kind : ArgumentKind) (operand : Operand) :
    kind.accepts operand.unaimed = kind.accepts operand := by
  cases operand <;> cases kind <;> rfl

/-- Whether every position of the form takes its operand. -/
def Takes (form : Form) (operands : List Operand) : Prop :=
  List.Forall₂ (fun kind operand => ArgumentKind.accepts kind operand = true) form.args operands

theorem misfit?_eq_none {position : Nat} {kinds : List ArgumentKind}
    (hlength : operands.length = kinds.length) :
    misfit? position kinds operands = none
      ↔ List.Forall₂ (fun kind operand => ArgumentKind.accepts kind operand
        = true) kinds operands := by
  induction kinds generalizing position operands with
  | nil =>
    rw [List.length_eq_zero_iff.1 hlength]
    exact iff_of_true rfl .nil
  | cons kind kinds ih =>
    cases operands with
    | nil => cases hlength
    | cons operand operands =>
      rw [List.forall₂_cons, misfit?]
      split
      · rename_i haccepts
        rw [ih (Nat.succ.inj hlength)]
        exact (and_iff_right haccepts).symm
      · rename_i hrefuses
        exact iff_of_false (Option.some_ne_none _) fun h => hrefuses h.1

/-- Operands have no fault exactly if the form takes them. -/
theorem operandFault?_eq_none : form.operandFault? operands = none ↔ form.Takes operands := by
  unfold operandFault?
  split
  · rename_i hlength
    exact misfit?_eq_none hlength
  · rename_i hlength
    refine iff_of_false nofun fun htakes => hlength ?_
    exact (List.Forall₂.length_eq htakes).symm

theorem takes_unaimed : form.Takes (operands.map Operand.unaimed) ↔ form.Takes operands := by
  simp only [Takes, List.forall₂_map_right_iff, accepts_unaimed]

/-- Operands that suit a form still do without their targets. -/
theorem operandFault?_unaimed (h : form.operandFault? operands = none) :
    operands.length = form.arity ∧ form.operandFault? (operands.map Operand.unaimed) = none := by
  rw [operandFault?_eq_none] at h ⊢
  exact ⟨(List.Forall₂.length_eq h).symm, takes_unaimed.2 h⟩

/-- Operands are written if they suit the form. -/
theorem writes_encode (checks : Checks) (hsuits : checks.known → form.operandFault? operands = none)
    (h : checks.resolved → ∀ operand ∈ operands,
      ∀ reference ∈ operand.reference?, reference.isPending = false) :
    (form.encode operands).Writes (operands.flatMap Operand.texts) checks.Leaves := by
  unfold encode
  split
  · rename_i fault hfault
    refine mirrors_throw fun hcheck => ?_
    rw [hsuits hcheck] at hfault
    cases hfault
  · refine (writes_all fun operand hop => ?_).map _ _
    exact Operand.writes_encode checks fun hcheck => h hcheck operand hop

/-- What operands are written as: their number, and each of them. -/
theorem encode_ok {heap later : StringHeap} {bytes : List UInt8}
    (h : (form.encode operands).run heap = .ok bytes later) :
    form.operandFault? operands = none ∧ ∃ parts,
      (operands.mapM Operand.encode).run heap = .ok parts later
        ∧ bytes = UInt8.ofNat operands.length :: parts.flatten := by
  unfold encode at h
  split at h
  · exact (run_throw_ok_iff.1 h).elim
  · rename_i hfault
    obtain ⟨_, _, hflat, h⟩ := run_bind_ok_iff.1 h
    obtain ⟨parts, hparts, rfl⟩ := run_all_ok_iff.1 hflat
    obtain ⟨rfl, rfl⟩ := run_pure_ok_iff.1 h
    exact ⟨hfault, parts, hparts, rfl⟩

/-- Operands take the sum of their widths, and a byte for their number. -/
theorem length_encode {heap later : StringHeap} {bytes : List UInt8}
    (h : (form.encode operands).run heap = .ok bytes later) :
    bytes.length = 1 + (operands.map Operand.width).sum := by
  obtain ⟨-, parts, hparts, rfl⟩ := encode_ok h
  have hwidths : parts.map List.length = operands.map Operand.width :=
    map_eq_of_forall₂ (forall₂_of_run_mapM hparts)
      fun _ _ _ ⟨_, _, hrun⟩ => Operand.length_encode hrun
  rw [List.length_cons, List.length_flatten, hwidths, Nat.add_comm]

section Final

variable {heap later final : StringHeap}
  (hgrows : later.Grows final) (hsmall : final.size ≤ countLimit)

include hgrows hsmall

/-- Written operands are read back but for the targets of labels. -/
theorem reads_encode {bytes : List UInt8} (harity : form.arity ≤ 255)
    (h : (form.encode operands).run heap = .ok bytes later) :
    Reads (form.decode final) bytes (operands.map Operand.unaimed) := by
  obtain ⟨hfault, parts, hparts, rfl⟩ := encode_ok h
  obtain ⟨hlength, hunaimed⟩ := operandFault?_unaimed hfault
  have hreads : ReadsEach (fun _ => Operand.decode final) (parts.map id)
      (operands.map Operand.unaimed) :=
    readsEach_of_forall₂ (wrote_of_mapM Operand.extends_encode hparts).2
      fun _ _ _ ⟨_, _, hrun, hafter⟩ =>
        Operand.reads_encode ((hafter.trans hgrows).lasts hsmall) hrun
  rw [List.map_id] at hreads
  have hcount : (UInt8.ofNat operands.length).toNat = form.arity := by
    rw [hlength, UInt8.toNat_ofNat_of_lt' (show form.arity < 256 by omega)]
  have htimes := hreads.times
  rw [hreads.length_eq, List.length_map, hlength] at htimes
  refine (reads_byte _).bind ?_
  rw [hcount, if_neg (by simp)]
  intro chunk tail position
  rw [run_bind_of_ok (htimes chunk tail position)]
  simp only [hunaimed]
  rfl

end Final

end Form

-- ==== instructions

/-- Bytes of an instruction: its opcode, the number of its operands, and
the operands. -/
def Instruction.width (instruction : Instruction) : Nat :=
  instruction.opcode.bytes.length + 1
    + (instruction.operands.map Operand.width).sum

/-- The instruction as it is stored: without its line and without the
targets of its labels. -/
def Instruction.unaimed (instruction : Instruction) : Instruction :=
  ⟨instruction.opcode, instruction.operands.map Operand.unaimed, 0⟩

/-- The texts that an instruction puts on a heap. -/
def Instruction.texts (instruction : Instruction) : List String :=
  instruction.operands.flatMap Operand.texts

/-- What the checks make sure of for an instruction. -/
structure Instruction.Passes (checks : Checks) (set : InstructionSet)
    (instruction : Instruction) : Prop where
  form : checks.known → ∃ form, set.get? instruction.opcode = some form
    ∧ form.operandFault? instruction.operands = none
  references : checks.resolved → ∀ reference ∈ instruction.references, reference.isPending = false

theorem Instruction.Passes.of_none {set : InstructionSet}
    {instruction : Instruction} : instruction.Passes .none set :=
  ⟨False.elim, False.elim⟩

theorem Instruction.width_pos (instruction : Instruction) : 0 < instruction.width := by
  unfold Instruction.width
  omega

/-- Where instructions start, the first of them at `start`, and where
they end. -/
def offsetsFrom (start : Nat) : List Instruction → List Nat
  | [] => [start]
  | instruction :: rest =>
    start :: offsetsFrom (start + instruction.width) rest

/-- Stored instructions with the places they start at. -/
def placedFrom (start : Nat) : List Instruction → List (Nat × Instruction)
  | [] => []
  | instruction :: rest =>
    (start, instruction.unaimed) :: placedFrom (start + instruction.width) rest

theorem length_offsetsFrom (start : Nat) (instructions : List Instruction) :
    (offsetsFrom start instructions).length = instructions.length + 1 := by
  induction instructions generalizing start with
  | nil => rfl
  | cons instruction rest ih =>
    rw [offsetsFrom, List.length_cons, ih, List.length_cons]

/-- Where an instruction, or the end of the code, stands: behind all that
comes before it. -/
def codeOffset (instructions : List Instruction) (place : Nat) : Nat :=
  ((instructions.take place).map Instruction.width).sum

theorem getElem?_offsetsFrom {place : Nat} (h : place ≤ instructions.length) (start : Nat) :
    (offsetsFrom start instructions)[place]? = some (start + codeOffset instructions place) := by
  induction instructions generalizing start place with
  | nil =>
    obtain rfl : place = 0 := Nat.le_zero.1 h
    rfl
  | cons instruction rest ih =>
    cases place with
    | zero => rfl
    | succ place =>
      have hplace : place ≤ rest.length := Nat.le_of_succ_le_succ h
      rw [offsetsFrom, List.getElem?_cons_succ, ih hplace, codeOffset,
        codeOffset, List.take_succ_cons, List.map_cons, List.sum_cons, Nat.add_assoc]

theorem map_snd_placedFrom (start : Nat) (instructions : List Instruction) :
    (placedFrom start instructions).map Prod.snd = instructions.map Instruction.unaimed := by
  induction instructions generalizing start with
  | nil => rfl
  | cons instruction rest ih =>
    rw [placedFrom, List.map_cons, ih, List.map_cons]

theorem map_fst_placedFrom (start : Nat) (instructions : List Instruction) :
    (placedFrom start instructions).map Prod.fst
        ++ [start + (instructions.map Instruction.width).sum]
      = offsetsFrom start instructions := by
  induction instructions generalizing start with
  | nil => rfl
  | cons instruction rest ih =>
    rw [placedFrom, offsetsFrom, ← ih, List.map_cons, List.map_cons,
      List.sum_cons, List.cons_append, Nat.add_assoc]

/-- Nothing starts before the first instruction. -/
theorem le_of_mem_offsetsFrom {start offset : Nat}
    (h : offset ∈ offsetsFrom start instructions) : start ≤ offset := by
  induction instructions generalizing start with
  | nil =>
    rw [offsetsFrom, List.mem_singleton] at h
    exact Nat.le_of_eq h.symm
  | cons instruction rest ih =>
    rw [offsetsFrom, List.mem_cons] at h
    rcases h with rfl | h
    · exact Nat.le_refl _
    · have hlater := ih h
      omega

/-- Every instruction starts behind the one before it. -/
theorem increasing_offsetsFrom (start : Nat) (instructions : List Instruction) :
    (offsetsFrom start instructions).Pairwise (· < ·) := by
  induction instructions generalizing start with
  | nil => exact List.pairwise_singleton _ start
  | cons instruction rest ih =>
    rw [offsetsFrom, List.pairwise_cons]
    refine ⟨fun _ hmem => ?_, ih _⟩
    have hlater := le_of_mem_offsetsFrom hmem
    have hpos := instruction.width_pos
    omega

/-- In a list without repetitions an item is found at its own place. -/
theorem lookup_zipIdx_of_nodup {items : List Nat} (hnodup : items.Nodup)
    {i item : Nat} (hi : items[i]? = some item) (start : Nat) :
    (items.zipIdx start).lookup item = some (start + i) := by
  induction items generalizing i start with
  | nil => simp at hi
  | cons first items ih =>
    rw [List.nodup_cons] at hnodup
    rw [List.zipIdx_cons, List.lookup_cons]
    cases i with
    | zero =>
      rw [List.getElem?_cons_zero, Option.some.injEq] at hi
      subst hi
      simp
    | succ i =>
      have hne : (item == first) = false := by
        rw [beq_eq_false_iff_ne]
        intro heq
        exact hnodup.1 (heq ▸ List.mem_of_getElem? hi)
      simp only [hne]
      rw [ih hnodup.2 hi (start + 1), Nat.add_assoc, Nat.add_comm 1 i]

/-- The offset of an instruction, or of the end, leads back to it. -/
theorem placeTable_offsetsFrom {i offset : Nat}
    (h : (offsetsFrom 0 instructions)[i]? = some offset) :
    (Container.placeTable (offsetsFrom 0 instructions)).get? offset = some i := by
  unfold Container.placeTable
  rw [Table.get?_ofList, lookup_zipIdx_of_nodup
    ((increasing_offsetsFrom 0 instructions).imp Nat.ne_of_lt) h, Nat.zero_add]

-- ==== code

namespace InstructionSet

variable {offset : Nat} {checks : Checks}

variable (set : InstructionSet)

theorem checkOffset_ok_iff {here : UInt32} :
    checkOffset offset = .ok here ↔ offset < UInt32.size ∧ UInt32.ofNat offset = here := by
  unfold checkOffset
  by_cases hfits : offset < UInt32.size
  · rw [if_pos hfits, Except.ok.injEq]
    simp [hfits]
  · rw [if_neg hfits]
    simp [hfits]

theorem failsOnly_checkOffset (h : checks.sized → offset < UInt32.size) :
    FailsOnly checks.Leaves (checkOffset offset) := by
  unfold checkOffset
  split
  · exact .ok _
  · rename_i hlarge
    exact .error fun hcheck => hlarge (h hcheck)

/-- An instruction takes its width, whatever the heap. -/
theorem length_encodeInstruction {instruction : Instruction}
    {heap later : StringHeap} {bytes : List UInt8}
    (h : (set.encodeInstruction instruction).run heap = .ok bytes later) :
    bytes.length = instruction.width := by
  unfold encodeInstruction at h
  split at h
  · exact (run_throw_ok_iff.1 h).elim
  · obtain ⟨_, hpayload, rfl⟩ := run_bind_pure_ok_iff.1 h
    rw [List.length_append, Form.length_encode hpayload, Instruction.width, Nat.add_assoc]

/-- An instruction is written if it is one of the set. -/
theorem writes_encodeInstruction {instruction : Instruction} (h : instruction.Passes checks set) :
    Mirrors instruction.texts checks.Leaves (fun bytes => bytes.length = instruction.width)
      (set.encodeInstruction instruction)
      (set.encodeInstruction instruction) := by
  refine .of_ok ?_ set.length_encodeInstruction
  unfold encodeInstruction
  split
  · rename_i hnone
    refine mirrors_throw fun hcheck => ?_
    obtain ⟨form, hform, -⟩ := h.form hcheck
    rw [hnone] at hform
    cases hform
  · rename_i form hform
    refine (Form.writes_encode checks (fun hcheck => ?_) ?_).map _ _
    · obtain ⟨_, hother, _⟩ := h.form hcheck
      rw [hform, Option.some.injEq] at hother
      rwa [hother]
    · exact fun hcheck operand hop reference href =>
        h.references hcheck reference (List.mem_filterMap.2 ⟨operand, hop, href⟩)

/-- Code is written as far as its offsets fit. -/
theorem writes_encodeFrom (h : ∀ instruction ∈ instructions, instruction.Passes checks set)
    (hsize : checks.sized → offset
      + (instructions.map Instruction.width).sum < UInt32.size) :
    (set.encodeFrom offset instructions).Writes
      (instructions.flatMap Instruction.texts) checks.Leaves := by
  induction instructions generalizing offset with
  | nil => exact (mirrors_lift (failsOnly_checkOffset hsize)).map _ _
  | cons instruction rest ih =>
    rw [List.forall_mem_cons] at h
    simp only [List.map_cons, List.sum_cons, ← Nat.add_assoc] at hsize
    have hhere : checks.sized → offset < UInt32.size := by
      intro hcheck
      have hlt := hsize hcheck
      omega
    refine (mirrors_lift (failsOnly_checkOffset hhere)).bind fun _ _ _ _ => ?_
    refine (set.writes_encodeInstruction h.1).bind fun _ _ hbytes hothers => ?_
    rw [hbytes, hothers]
    exact (ih h.2 hsize).map _ _

theorem extends_encodeFrom (offset : Nat) (instructions : List Instruction) :
    (set.encodeFrom offset instructions).Extends :=
  (set.writes_encodeFrom (fun _ _ => .of_none) False.elim).extends

section Final

variable {heap later final : StringHeap}
  (hgrows : later.Grows final) (hsmall : final.size ≤ countLimit)

include hgrows hsmall

/-- A written instruction is read back as it is stored. -/
theorem reads_encodeInstruction {instruction : Instruction} {bytes : List UInt8}
    (h : (set.encodeInstruction instruction).run heap = .ok bytes later) :
    Reads (set.decodeInstruction final) bytes instruction.unaimed := by
  unfold encodeInstruction at h
  split at h
  · exact (run_throw_ok_iff.1 h).elim
  · rename_i form hform
    obtain ⟨_, hpayload, rfl⟩ := run_bind_pure_ok_iff.1 h
    obtain ⟨hmem, hopcode⟩ := get?_sound hform
    have harity := set.unambiguous.arity_le form hmem
    refine (hopcode ▸ reads_decodeOpcode hmem).bind ?_
    simp only [hform]
    exact (Form.reads_encode hgrows hsmall harity hpayload).map
      fun operands => Instruction.mk instruction.opcode operands 0

/-- Written code is read to its end, every instruction with its place.
Fuel for each byte is enough, since an instruction has one at least. -/
theorem run_decodeFrom {start : Nat} {code : Code}
    (h : (set.encodeFrom start instructions).run heap = .ok code later)
    {fuel : Nat} (hfuel : code.bytes.length ≤ fuel) (chunk : String) :
    (set.decodeFrom final fuel).run ⟨chunk, code.bytes, start⟩
      = .ok (placedFrom start instructions)
        ⟨chunk, [], start + code.bytes.length⟩ := by
  induction instructions generalizing heap start code fuel with
  | nil =>
    obtain ⟨here, mid, -, h⟩ := run_bind_ok_iff.1 h
    obtain ⟨rfl, rfl⟩ := run_pure_ok_iff.1 h
    cases fuel with
    | zero => rfl
    | succ => rfl
  | cons instruction rest ih =>
    obtain ⟨here, mid, _, h⟩ := run_bind_ok_iff.1 h
    obtain ⟨bytes, mid, hbytes, h⟩ := run_bind_ok_iff.1 h
    obtain ⟨tail, htail, rfl⟩ := run_bind_pure_ok_iff.1 h
    have hmid : mid.Grows final := (set.extends_encodeFrom _ rest mid tail _ htail).trans hgrows
    have hwidth := set.length_encodeInstruction hbytes
    have hread := set.reads_encodeInstruction hmid hsmall hbytes
    have hpos := instruction.width_pos
    rw [List.length_append] at hfuel
    obtain ⟨fuel, rfl⟩ : ∃ n, fuel = n + 1 := ⟨fuel - 1, by omega⟩
    have hrest := ih htail (show tail.bytes.length ≤ fuel by omega)
    have hfull : (bytes ++ tail.bytes).isEmpty = false := by
      cases bytes with
      | nil =>
        rw [List.length_nil] at hwidth
        omega
      | cons => rfl
    unfold decodeFrom
    rw [run_bind_of_ok (EStateM.run_get _)]
    simp only [hfull]
    rw [if_neg (by decide), run_bind_of_ok (hread chunk _ start),
      run_bind_of_ok hrest, EStateM.run_pure, placedFrom, hwidth,
      List.length_append, hwidth, Nat.add_assoc]

end Final

/-- The offsets noted while code is written are the places of the
instructions and of the end, and the code is as long as its widths say. -/
theorem offsets_of_encodeFrom {start : Nat} {heap later : StringHeap} {code : Code}
    (h : (set.encodeFrom start instructions).run heap = .ok code later) :
    code.offsets.map UInt32.toNat = offsetsFrom start instructions
      ∧ code.bytes.length = (instructions.map Instruction.width).sum := by
  induction instructions generalizing heap start code with
  | nil =>
    obtain ⟨here, mid, hhere, h⟩ := run_bind_ok_iff.1 h
    obtain ⟨hchecked, rfl⟩ := run_lift_ok_iff.1 hhere
    obtain ⟨hfits, rfl⟩ := checkOffset_ok_iff.1 hchecked
    obtain ⟨rfl, rfl⟩ := run_pure_ok_iff.1 h
    refine ⟨?_, rfl⟩
    rw [List.map_singleton, UInt32.toNat_ofNat_of_lt' hfits, offsetsFrom]
  | cons instruction rest ih =>
    obtain ⟨here, mid, hhere, h⟩ := run_bind_ok_iff.1 h
    obtain ⟨hchecked, rfl⟩ := run_lift_ok_iff.1 hhere
    obtain ⟨hfits, rfl⟩ := checkOffset_ok_iff.1 hchecked
    obtain ⟨_, mid, hbytes, h⟩ := run_bind_ok_iff.1 h
    obtain ⟨_, htail, rfl⟩ := run_bind_pure_ok_iff.1 h
    have hwidth := set.length_encodeInstruction hbytes
    obtain ⟨hoffsets, hlength⟩ := ih htail
    constructor
    · rw [List.map_cons, hoffsets, UInt32.toNat_ofNat_of_lt' hfits, offsetsFrom, hwidth]
    · rw [List.length_append, hwidth, hlength, List.map_cons, List.sum_cons]

end InstructionSet

end StackAsm
