/-
Why writing fails, and when it succeeds. A writer refuses opcodes that its
set does not know, operands that do not suit their form, references that
were not resolved and labels without a place. A program that has none of
these is writable; all that can stop its writer is a number or a length
for which the format has too few bytes
(`Program.failsOnly_toContainer_of_writable`).

Where every count and every length fits its bytes, a writable program is
written (`toContainer_of_sized`). The heap is part of that: its texts are
those of the program (`Program.texts`), so it has no more entries than the
program has texts.
-/
import StackAsm.Proofs.Container.Image
import StackAsm.Proofs.Parse.Arguments
import StackAsm.Proofs.Program.Members

namespace StackAsm

open Encode

-- ==== instructions

/-- Whether an instruction is one of the set, with its references
resolved. -/
structure Instruction.Writable (set : InstructionSet) (instruction : Instruction) : Prop where
  form : ∃ form ∈ set.forms, form.opcode = instruction.opcode ∧ form.Takes instruction.operands
  references : ∀ reference ∈ instruction.references, reference.isPending = false

/-- Targets of branches hold no references. -/
theorem Instruction.references_unaimed (instruction : Instruction) :
    instruction.unaimed.references = instruction.references := by
  unfold Instruction.references Instruction.unaimed
  rw [List.filterMap_map]
  refine List.filterMap_congr fun operand _ => ?_
  cases operand <;> rfl

/-- Whether an instruction can be written is not a matter of targets. -/
theorem Instruction.Writable.of_unaimed {set : InstructionSet}
    {instruction aimed : Instruction} (h : instruction.Writable set)
    (hsame : aimed.unaimed = instruction.unaimed) : aimed.Writable set := by
  obtain ⟨form, hform, hopcode, htakes⟩ := h.form
  have hreferences := congrArg Instruction.references hsame
  rw [references_unaimed, references_unaimed] at hreferences
  injection hsame with hopcodes hoperands
  refine ⟨⟨form, hform, hopcode.trans hopcodes.symm, htakes.of_unaimed hoperands⟩, ?_⟩
  rw [hreferences]
  exact h.references

-- ==== members

/-- Whether all that a method names is resolved, its instructions are of
the set, and its labels have their places in the code. -/
structure Method.Writable (set : InstructionSet) (method : Method) : Prop where
  references : ∀ reference ∈ method.references, reference.isPending = false
  forms : ∀ instruction ∈ method.body.instructions,
    ∃ form ∈ set.forms, form.opcode = instruction.opcode ∧ form.Takes instruction.operands
  labels : ∀ label ∈ method.body.labels, ∃ place, label.offset = some place
      ∧ place.toNat ≤ method.body.instructions.length

theorem Method.Writable.code {set : InstructionSet} {method : Method}
    (h : method.Writable set) : ∀ instruction ∈ method.body.instructions,
      instruction.Writable set := by
  intro instruction hin
  refine ⟨h.forms instruction hin, fun reference hmem => ?_⟩
  exact h.references reference (List.mem_append_right _
    (List.mem_flatMap.2 ⟨instruction, hin, hmem⟩))

/-- Whether the members of a type can be written. -/
structure WritableMembers (set : InstructionSet) (fields : List Field)
    (methods : List Method) : Prop where
  fields : ∀ field ∈ fields, field.type.reference.isPending = false
  methods : ∀ method ∈ methods, method.Writable set

/-- Whether all that a program holds can be written. -/
structure Program.Writable (set : InstructionSet) (program : Program) : Prop where
  aliases : ∀ entry ∈ program.aliases, entry.target.reference.isPending = false
  types : program.All (WritableMembers set)

-- ==== sizes

/-- What a type has fits, types nested in it left out. -/
structure TypeDecl.Sized (type : TypeDecl) : Prop where
  members_lt : type.memberCount < UInt32.size
  methods : ∀ method ∈ type.methods, method.Sized

/-- What a program has fits the counts and lengths of the format. The
size of its heap is left out. -/
structure Program.Sized (program : Program) : Prop where
  segments_lt : program.segmentCount < UInt32.size
  externals : ∀ path ∈ program.externals, Text.Storable path
  aliases : ∀ entry ∈ program.aliases, Text.Storable entry.name
    ∧ ∀ text ∈ entry.target.reference.texts, Text.Storable text
  names : ∀ space ∈ program.namespaces, Text.Storable space.name
  spaces_lt : ∀ space ∈ program.namespaces, space.types.length < UInt32.size
  types : ∀ entry ∈ program.types, entry.2.Sized
  texts : ∀ text ∈ program.texts, Text.Storable text

/-- What the checks make sure of for a program. -/
structure Program.Passes (checks : Checks) (set : InstructionSet) (program : Program) : Prop where
  aliases : checks.resolved → ∀ entry ∈ program.aliases, entry.target.reference.isPending = false
  types : ∀ entry ∈ program.types, entry.2.Passes checks set
  sizes : checks.sized → program.Sized

theorem ContainerStyle.failsOnly_writeAlias {checks : Checks} {entry : TypeAlias}
    (h : checks.resolved → entry.target.reference.isPending = false)
    (hsizes : checks.sized → Text.Storable entry.name
      ∧ ∀ text ∈ entry.target.reference.texts, Text.Storable text) :
    FailsOnly checks.Leaves (writeAlias entry) := by
  obtain ⟨_, reference, _⟩ := entry
  refine (Checks.failsOnly_string (fun hcheck =>
    (hsizes hcheck).1) _).bind fun _ => ?_
  cases reference with
  | pending => exact .error fun hcheck => nomatch h hcheck
  | resolved symbol =>
    refine (Checks.failsOnly_string (fun hcheck => ?_) _).bind fun _ => .ok _
    exact (hsizes hcheck).2 symbol.name (List.mem_singleton_self _)

namespace Program

variable {checks : Checks} {style : ContainerStyle} {set : InstructionSet} {program : Program}

theorem Passes.parts (h : program.Passes checks style.set) : program.Parts checks.Leaves style where
  segments := Checks.failsOnly_count32 (fun hcheck =>
    (h.sizes hcheck).segments_lt) _
  externals path hpath := (Checks.failsOnly_string (fun hcheck =>
    (h.sizes hcheck).externals path hpath) _).bind fun _ => .ok _
  aliases entry hentry := ContainerStyle.failsOnly_writeAlias
    (fun hcheck => h.aliases hcheck entry hentry)
    fun hcheck => (h.sizes hcheck).aliases entry hentry
  spaces space hspace := ⟨Checks.failsOnly_string (fun hcheck =>
      (h.sizes hcheck).names space hspace) _,
    Checks.failsOnly_count32 (fun hcheck =>
      (h.sizes hcheck).spaces_lt space hspace) _⟩
  types _ hspace _ htype := ContainerStyle.writes_writeType
    fun entry hentry => h.types entry (mem_types hspace htype hentry)

theorem Writable.passes (h : program.Writable set) (hsizes : checks.sized → program.Sized) :
    program.Passes checks set where
  aliases _ := h.aliases
  sizes := hsizes
  types entry hentry := by
    have hmembers := h.types.of_types hentry
    have hsized := fun hcheck => (hsizes hcheck).types entry hentry
    refine ⟨fun hcheck => (hsized hcheck).members_lt,
      fun _ => hmembers.fields, fun method hmethod => ?_⟩
    have hmethods := hmembers.methods method hmethod
    refine ⟨fun _ => hmethods.references, fun _ => ?_, fun _ => hmethods.labels,
      fun hcheck => (hsized hcheck).methods method hmethod⟩
    intro instruction hin
    obtain ⟨form, hform, hopcode, htakes⟩ := hmethods.forms instruction hin
    rw [← hopcode]
    exact ⟨form, set.get?_of_mem hform, Form.operandFault?_eq_none.2 htakes⟩

/-- Only its size can keep a writable program from being written. -/
theorem failsOnly_toContainer_of_writable (h : program.Writable style.set) :
    FailsOnly FormatFault.IsSize (program.toContainer style) := by
  intro fault hfault
  have hpasses : program.Passes .allButSizes style.set := h.passes False.elim
  exact Checks.isSize_of_leaves (Container.failsOnly_toContainer
    hpasses.parts (Checks.failsOnly_heap False.elim False.elim) fault hfault)

end Program

-- ==== whole programs

section Whole

variable {set : InstructionSet} {program : Program}
  (hwritable : program.Writable set) (hsized : program.Sized)

include hwritable hsized

theorem parts_of_sized : program.Parts Checks.all.Leaves ⟨set, false⟩ := by
  have hpasses : program.Passes .all set := hwritable.passes fun _ => hsized
  exact hpasses.parts

theorem heap_of_sized :
    ContainerStyle.heap ⟨set, false⟩ program
      = StringHeap.internAll {} program.texts :=
  Container.heap_of_parts (parts_of_sized hwritable hsized) Checks.not_leaves_all

theorem size_heap_of_sized :
    (ContainerStyle.heap ⟨set, false⟩ program).size ≤ program.texts.length := by
  rw [heap_of_sized hwritable hsized]
  exact StringHeap.size_internAll_le program.texts

/-- A writable program is written if it fits and its heap does. -/
theorem toContainer_of_sized
    (hheap : (ContainerStyle.heap ⟨set, false⟩ program).size < UInt32.size) :
    ∃ image, program.toContainer ⟨set, false⟩ = .ok image := by
  refine (Container.failsOnly_toContainer (parts_of_sized hwritable hsized)
    (Checks.failsOnly_heap (fun _ => hheap) fun _ text htext => ?_)).exists_ok Checks.not_leaves_all
  rw [heap_of_sized hwritable hsized, (StringHeap.entries_internAll _).2] at htext
  exact hsized.texts text htext

end Whole

end StackAsm
