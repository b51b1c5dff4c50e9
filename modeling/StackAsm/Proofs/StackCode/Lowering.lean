/-
What was read from a container can be lowered. The reader makes sure that
every instruction has operands that its form takes, that references are
resolved and labels placed, and this is all that the rules of the standard
set ask for. What is left are the deferred compares, and they need locals:
lowering fails for want of these or not at all.
-/
import StackAsm.StackCode.Module
import StackAsm.Proofs.Container.Loading
import StackAsm.Proofs.Container.RoundTrip
import StackAsm.Proofs.StackCode.Compare
import StackAsm.Proofs.StackCode.Rules

namespace StackAsm

open Lower

-- ==== code

/-- Whether an instruction compares the two topmost values of the
stack. -/
def Instruction.comparesStack (set : InstructionSet) (instruction : Instruction) : Bool :=
  (set.get? instruction.opcode).any (·.lowering == .compareStack)

namespace Lowering

variable {lowering : Lowering}

theorem count_marks (labels : LabelsByPlace) (place : Nat) :
    (marks labels place).count (.pending .compare) = 0 := by
  rw [List.count_eq_zero]
  simp [marks]

theorem count_guardOps : lowering.guardOps.count (.pending .compare) = 0 := by
  unfold guardOps
  split <;> rfl

section Code

variable (hset : ∀ form ∈ lowering.set.forms, form.lowers = true)
include hset

/-- An instruction that could be written is lowered, and leaves a compare
to be done exactly if it compares stack values. -/
theorem gives_block {instruction : Instruction}
    (h : instruction.Writable lowering.set) (method : String) (index : Nat) :
    (lowering.block method index instruction).Gives fun ops =>
      ops.count (.pending .compare) = (instruction.comparesStack lowering.set).toNat := by
  obtain ⟨form, hform, hopcode, htakes⟩ := h.form
  have hfound : lowering.set.get? instruction.opcode = some form := by
    rw [← hopcode]
    exact lowering.set.get?_of_mem hform
  have hresolved : ∀ operand ∈ instruction.operands,
      ∀ reference ∈ operand.reference?, reference.isPending = false :=
    fun operand hop reference href => h.references reference
      (List.mem_filterMap.2 ⟨operand, hop, href⟩)
  unfold block Instruction.comparesStack
  rw [hfound]
  exact LoweringContext.gives_lower
    ⟨lowering.facts, lowering.options, method, index, form.mnemonic⟩ rfl
    (Form.covers_of_takes (hset form hform) htakes hresolved)

theorem gives_codeFrom {instructions : List Instruction}
    (h : ∀ instruction ∈ instructions, instruction.Writable lowering.set)
    (method : String) (labels : LabelsByPlace) (index : Nat) :
    (lowering.codeFrom method labels index instructions).Gives fun ops =>
      ops.count (.pending .compare) = instructions.countP (·.comparesStack lowering.set) := by
  induction instructions generalizing index with
  | nil => exact gives_pure (count_marks labels index)
  | cons instruction rest ih =>
    rw [List.forall_mem_cons] at h
    refine (gives_block hset h.1 method index).bind fun _ hops => ?_
    refine (ih h.2 (index + 1)).map fun _ hothers => ?_
    rw [List.count_append, List.count_append, count_marks, hops, hothers, List.countP_cons]
    cases instruction.comparesStack lowering.set <;> simp +arith

/-- A method that could be written can be drafted. -/
theorem gives_draft {method : Method} (h : method.Writable lowering.set) (owner : String) :
    (lowering.draft owner method).Gives fun draft =>
      draft.name = Text.join owner method.name ∧ draft.locals.size = method.body.locals.length
        ∧ draft.ops.count (.pending .compare) = method.body.instructions.countP
            (·.comparesStack lowering.set) := by
  have hplaced : method.body.labels.find? (·.offset.isNone) = none := by
    rw [List.find?_eq_none]
    intro label hlabel
    obtain ⟨_, hoffset, -⟩ := h.labels label hlabel
    simp [hoffset]
  unfold draft
  simp only [hplaced]
  refine (gives_codeFrom hset h.code _ _ 0).map fun _ hcode => ?_
  refine ⟨rfl, by simp, ?_⟩
  rw [List.count_append, count_guardOps, hcode, Nat.zero_add]

/-- A method that could be written is lowered unless locals run out. -/
theorem method_ends {method : Method} (h : method.Writable lowering.set)
    (owner : String) (tables : StackTables) :
    (∃ final later, (lowering.method owner method).run tables
        = .ok final later)
      ∨ ∃ fault later, (lowering.method owner method).run tables = .error fault later
        ∧ fault = .tooManyLocals (Text.join owner method.name)
        ∧ UInt16.size < method.body.locals.length
          + method.body.instructions.countP
            (·.comparesStack lowering.set) := by
  obtain ⟨draft, _, hdraft, hname, hlocals, hcount⟩ := gives_draft hset h owner tables
  unfold Lowering.method
  rw [run_bind_of_ok hdraft]
  rcases draft.patchCompares_ends with ⟨_, hfinal⟩ | ⟨hfault, hmany⟩
  · simp only [hfinal]
    exact .inl ⟨_, _, rfl⟩
  · rw [hname] at hfault
    rw [hlocals, hcount] at hmany
    simp only [hfault]
    exact .inr ⟨_, _, rfl, rfl, hmany⟩

end Code

end Lowering

-- ==== programs

/-- The first item that fails decides. -/
theorem Lower.mapM_ends {α β : Type} {step : α → Lower β}
    {F : α → LoweringFault → Prop} {items : List α}
    (h : ∀ item ∈ items, ∀ tables, (∃ value later, (step item).run tables = .ok value later)
        ∨ ∃ fault later, (step item).run tables = .error fault later
          ∧ F item fault) (tables : StackTables) :
    (∃ values later, (items.mapM step).run tables = .ok values later)
      ∨ ∃ item ∈ items, ∃ fault later, (items.mapM step).run tables = .error fault later
          ∧ F item fault := by
  induction items generalizing tables with
  | nil => exact .inl ⟨[], tables, rfl⟩
  | cons item rest ih =>
    rw [List.forall_mem_cons] at h
    rw [List.mapM_cons]
    rcases h.1 tables with ⟨_, middle, hvalue⟩ | ⟨fault, later, hrun, hF⟩
    · rw [run_bind_of_ok hvalue]
      rcases ih h.2 middle with
        ⟨values, later, hrun⟩ | ⟨other, hother, fault, later, hrun, hF⟩
      · rw [run_bind_of_ok hrun]
        exact .inl ⟨_, _, rfl⟩
      · exact .inr ⟨other, .tail _ hother, fault, later, run_bind_of_error hrun, hF⟩
    · exact .inr ⟨item, .head _, fault, later, run_bind_of_error hrun, hF⟩

/-- Every method of a program that was read could be written. -/
theorem Program.writable_of_mem_methods {set : InstructionSet}
    {program : Program} (h : program.Loaded set) :
    ∀ entry ∈ program.methods, entry.2.Writable set := by
  intro entry hentry
  obtain ⟨owner, howner, hentry⟩ := List.mem_flatMap.1 hentry
  obtain ⟨method, hmethod, rfl⟩ := List.mem_map.1 hentry
  exact ((h.types owner howner).methods method hmethod).writable

/-- What was read can be lowered, whatever the options, unless a method
has so many locals that those for its compares find no slot. -/
theorem Program.lower_of_ofContainer {names : Option DebugNames}
    {bytes : List UInt8} {program : Program} (h : ofContainer .standard names bytes = .ok program)
    (options : LoweringOptions) :
    (∃ lowered, program.lower .standard options = .ok lowered)
      ∨ ∃ entry ∈ program.methods, program.lower .standard options
          = .error (.tooManyLocals (Text.join entry.1 entry.2.name))
        ∧ UInt16.size < entry.2.body.locals.length
          + entry.2.body.instructions.countP
            (·.comparesStack .standard) := by
  have hset : ∀ form ∈ (Lowering.mk .standard (ProgramFacts.ofProgram program) options).set.forms,
      form.lowers = true := Form.lowers_standard
  have hwritable := writable_of_mem_methods (loaded_of_ofContainer h)
  have hends := Lower.mapM_ends (fun entry (hentry : entry ∈ Lowering.withBodies program) =>
      Lowering.method_ends hset (hwritable entry (List.mem_filter.1 hentry).1) entry.1) {}
  unfold lower
  rcases hends with ⟨methods, tables, hrun⟩
    | ⟨entry, hentry, fault, tables, hrun, rfl, hmany⟩
  · simp only [hrun]
    exact .inl ⟨_, rfl⟩
  · simp only [hrun]
    exact .inr ⟨entry, (List.mem_filter.1 hentry).1, rfl, hmany⟩

-- ==== a sample

namespace Sample

/-- A method that compares two numbers on the stack, so that the lower one
needs a scratch local to be boxed. -/
def comparing : Method where
  name := "same"
  attrs := ⟨Attributes.staticBit⟩
  body :=
    { instructions := [⟨.single 0x02, [.const (.i32 1)], 0⟩,
        ⟨.single 0x02, [.const (.i32 2)], 0⟩, ⟨.single 0x70, [], 0⟩, ⟨.single 0x62, [], 0⟩] }

def comparison : Program where
  namespaces := [⟨"App", [{ name := "Main", methods := [comparing] }]⟩]

seal StringHeap.intern in
theorem run_writeBody_comparison :
    ∃ out, (ContainerStyle.writeBody ⟨.standard, false⟩ comparison).run {}
      = .ok out (["Main", "same", "void"].foldl (fun heap text => (heap.intern text).2) {}) :=
  ⟨_, rfl⟩

theorem toContainer_comparison :
    (∃ image, comparison.toContainer ⟨.standard, false⟩ = .ok image)
      ∧ comparison.Loadable ⟨.standard, false⟩ := by
  obtain ⟨_, hrun⟩ := run_writeBody_comparison
  have hempty : ({} : StringHeap) = .ofEntries [] := rfl
  have hheap : ["Main", "same", "void"].foldl
        (fun heap text => (heap.intern text).2) ({} : StringHeap)
      = .ofEntries ["Main", "same", "void"] := by
    rw [hempty]
    simp [StringHeap.intern_ofEntries, List.idxOf?, List.findIdx?_cons]
  rw [hheap] at hrun
  refine ⟨?_, ?_, by decide, by decide, by decide, by decide⟩
  · unfold Program.toContainer
    simp only [hrun]
    exact ⟨_, rfl⟩
  · unfold ContainerStyle.heap
    rw [hrun]
    show (StringHeap.ofEntries ["Main", "same", "void"]).size ≤ countLimit
    decide

theorem regular_comparison : comparison.Regular where
  externals_nodup := by decide
  names_nodup := by decide
  types_ne_nil := by decide
  aimed := by
    have hmethods : comparison.methods = [("App.Main", comparing)] := by
      decide
    rw [hmethods]
    intro entry hentry instruction hin index target hop
    rw [List.mem_singleton] at hentry
    subst hentry
    simp only [comparing, List.mem_cons, List.not_mem_nil, or_false] at hin
    rcases hin with rfl | rfl | rfl | rfl <;> simp at hop

end Sample

/-- The sample is written, read and lowered. -/
theorem Sample.lower_comparison :
    ∃ image lowered, comparison.toContainer ⟨.standard, false⟩ = .ok image
      ∧ Program.ofContainer .standard none image.bytes
        = .ok comparison.forgetLines
      ∧ comparison.forgetLines.lower .standard {} = .ok lowered := by
  obtain ⟨⟨image, himage⟩, hloadable⟩ := toContainer_comparison
  have hread := Container.ofContainer_of_loadable himage regular_comparison hloadable none
  rw [ContainerStyle.programRead_eq_mapMembers fun entry _ =>
    ContainerStyle.methodRead_of_kept rfl _ entry.2] at hread
  rcases Program.lower_of_ofContainer hread {} with
    ⟨lowered, hlowered⟩ | ⟨entry, hentry, -, hmany⟩
  · exact ⟨image, lowered, himage, hread, hlowered⟩
  · have hfew : ∀ entry ∈ comparison.forgetLines.methods, ¬ UInt16.size < entry.2.body.locals.length
          + entry.2.body.instructions.countP
            (·.comparesStack .standard) := by
      decide
    exact absurd hmany (hfew entry hentry)

end StackAsm
