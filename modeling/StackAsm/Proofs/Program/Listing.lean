/-
Offsets in listings. A listing writes the code of each method on a heap of
its own, a container writes it on the heap of all methods. What is written
differs, but not how long it is: the offsets are the same on every heap.
So the offset in front of an instruction of the listing is the one that a
label at this instruction has in the container and in the debug names
(`Method.offsets_listed`).
-/
import StackAsm.Program.Listing
import StackAsm.Proofs.Container.Method

namespace StackAsm

variable {set : InstructionSet} {instructions : List Instruction} {heap later : StringHeap}
  {code : Code}

/-- Code that was written on one heap is written on any, with the same
offsets and the same length. -/
theorem InstructionSet.same_offsets (h : (set.encodeCode instructions).run heap = .ok code later)
    (other : StringHeap) :
    ∃ again final, (set.encodeCode instructions).run other = .ok again final
      ∧ again.offsets = code.offsets ∧ again.bytes.length = code.bytes.length := by
  have hwrites : (set.encodeFrom 0 instructions).Writes _ Checks.none.Leaves :=
    set.writes_encodeFrom (fun _ _ => .of_none) False.elim
  obtain ⟨again, hrun, -⟩ := (hwrites.ok h).2.2 other
  obtain ⟨hoffsets, hlength⟩ := set.offsets_of_encodeFrom h
  obtain ⟨hoffsets', hlength'⟩ := set.offsets_of_encodeFrom hrun
  refine ⟨again, _, hrun, ?_, hlength'.trans hlength.symm⟩
  exact (List.map_inj_right fun _ _ => UInt32.toNat_inj.1).1 (hoffsets'.trans hoffsets.symm)

/-- The offsets of code grow from zero to its length, one for each
instruction and one for the end. -/
theorem InstructionSet.offsets_grow (h : (set.encodeCode instructions).run heap = .ok code later) :
    code.offsets.Pairwise (· < ·)
      ∧ code.offsets.length = instructions.length + 1
      ∧ code.offsets.head?.map UInt32.toNat = some 0
      ∧ code.offsets.getLast?.map UInt32.toNat = some code.bytes.length := by
  obtain ⟨hoffsets, hlength⟩ := set.offsets_of_encodeFrom h
  have hgrow := increasing_offsetsFrom 0 instructions
  rw [← hoffsets, List.pairwise_map] at hgrow
  refine ⟨hgrow.imp UInt32.lt_iff_toNat_lt.2, ?_, ?_, ?_⟩
  · rw [← List.length_map UInt32.toNat, hoffsets, length_offsetsFrom]
  · rw [← List.head?_map, hoffsets]
    cases instructions <;> rfl
  · rw [← List.getLast?_map, hoffsets, ← map_fst_placedFrom, List.getLast?_append, Nat.zero_add,
      hlength]
    rfl

end StackAsm
