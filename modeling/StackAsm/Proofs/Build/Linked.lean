/-
Programs without a pending reference. Wherever a program can hold a
reference, its writer and its lowering look at it, and either fails on
one that is pending. Both look at no other place, so a program whose
references are all resolved is never refused for one: not by the writer
(`Program.linked_toContainer`) and not by lowering
(`Program.linked_lower`), whatever else may be wrong with it.
-/
import StackAsm.Proofs.Build.Writing
import StackAsm.Proofs.Program.Agree
import StackAsm.Proofs.StackCode.ControlFlow

namespace StackAsm

-- ==== writing

namespace Program

variable {program : Program}

/-- The aliases and the members of a program are resolved if all its
references are. -/
theorem resolved_parts (h : ∀ reference ∈ program.references, reference.isPending = false) :
    (∀ entry ∈ program.aliases, entry.target.reference.isPending = false)
      ∧ program.All (ResolvedMembers id) :=
  ⟨fun entry hentry => h _ (List.mem_append_left _ (List.mem_map.2 ⟨entry, hentry, rfl⟩)),
    all_resolvedMembers h⟩

/-- A program whose references are resolved is never refused for one by
its writer. -/
theorem linked_toContainer (h : ∀ reference ∈ program.references, reference.isPending = false)
    (style : ContainerStyle) (name : String) :
    program.toContainer style ≠ .error (.unresolved name) := by
  obtain ⟨haliases, hmembers⟩ := resolved_parts h
  have hpasses : program.Passes ⟨True, False, False⟩ style.set := by
    refine ⟨fun _ => haliases, fun _ hentry => ?_, False.elim⟩
    have hown := hmembers.of_types hentry
    exact ⟨False.elim, fun _ => hown.fields, fun method hmethod =>
      ⟨fun _ => hown.methods method hmethod, False.elim, False.elim, False.elim⟩⟩
  intro hfault
  exact Container.failsOnly_toContainer hpasses.parts
    (Checks.failsOnly_heap False.elim False.elim) _ hfault trivial

end Program

-- ==== lowering

/-- Where the references of a method are resolved, none is to blame. -/
theorem Method.isUnresolved_of_blames {method : Method}
    (h : ∀ reference ∈ method.references, reference.isPending = false) {fault : LoweringFault}
    (hblames : Blames (method.body.instructions.flatMap (·.operands))
      fault) : fault.isUnresolved = false := by
  have hcode := (Method.forall_references_iff.1 h).2.2.2
  rw [← Bool.not_eq_true]
  intro hfault
  obtain ⟨operand, hop, reference, href, hpending⟩ := hblames hfault
  obtain ⟨instruction, hin, hop⟩ := List.mem_flatMap.1 hop
  have hresolved := hcode instruction hin reference
    (List.mem_filterMap.2 ⟨operand, hop, href⟩)
  rw [hresolved] at hpending
  cases hpending

/-- A program whose references are resolved is never refused for one by
lowering. -/
theorem Program.linked_lower {program : Program}
    (h : ∀ reference ∈ program.references, reference.isPending = false)
    (set : InstructionSet) (options : LoweringOptions) (method name : String) :
    program.lower set options ≠ .error (.unresolved method name) := by
  have hmembers := (resolved_parts h).2
  have hmethods : ∀ entry ∈ Lowering.withBodies program,
      ∀ reference ∈ entry.2.references, reference.isPending = false := by
    intro entry hentry
    obtain ⟨_, howner, hentry⟩ := List.mem_flatMap.1 (List.mem_filter.1 hentry).1
    obtain ⟨method, hmethod, rfl⟩ := List.mem_map.1 hentry
    exact (hmembers.of_types howner).methods method hmethod
  have hrun := Lower.within_mapM fun entry hentry =>
    (Lowering.within_method ⟨set, ProgramFacts.ofProgram program, options⟩
      {} entry.1 entry.2).imp_error fun _ =>
        Method.isUnresolved_of_blames (hmethods entry hentry)
  intro hfault
  unfold lower at hfault
  simp only at hfault
  split at hfault
  · cases hfault
  · rename_i fault tables hfailed
    cases hfault
    exact absurd (hrun.error hfailed) (by simp [LoweringFault.isUnresolved])

end StackAsm
