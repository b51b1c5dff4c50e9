/-
Blocks, one behind the other. A block is never empty, has no marks, which
belong to the method alone, and reaches no local that the operands do not
name (`IsBlockFor`), whatever its shape. The code of a method is made of
blocks (`exists_blocks_of_codeFrom`).
-/
import StackAsm.Proofs.StackCode.Shapes

namespace StackAsm

open Lower

-- ==== one block

/-- Code that an instruction with those operands may become. -/
structure IsBlockFor (operands : List Operand) (ops : List StackOp) : Prop where
  ne_nil : ops ≠ []
  unmarked : ∀ label, .mark label ∉ ops
  named : ∀ access slot, .var access .locals slot ∈ ops → .var .locals slot ∈ operands

theorem BlockShape.isBlockFor {unchecked : Bool} {final : StackTables}
    {operands : List Operand} {ops : List StackOp} (h : BlockShape unchecked final operands ops) :
    IsBlockFor operands ops := by
  have hmark : ∀ {code}, IsPlainCode code → ∀ label, StackOp.mark label ∉ code :=
    fun hcode _ => not_mem_of_isPlainCode hcode rfl
  have hvar : ∀ {code}, IsPlainCode code → ∀ access slot, StackOp.var access .locals slot ∉ code :=
    fun hcode _ _ => not_mem_of_isPlainCode hcode rfl
  cases h with
  | plain hne hops =>
    exact ⟨hne, hmark hops, fun access slot hmem =>
      absurd hmem (hvar hops access slot)⟩
  | text _ _ hrest =>
    exact ⟨by simp, by simp [hmark hrest], by simp [hvar hrest]⟩
  | @field _ _ op hop _ =>
    refine ⟨by simp, fun label hmem => ?_, fun access slot hmem => ?_⟩
    · rw [← List.mem_singleton.1 hmem] at hop
      cases hop
    · rw [← List.mem_singleton.1 hmem] at hop
      cases hop
  | compareRegisters left right =>
    have hleft := isPlainCode_compareOperand left
    have hright := isPlainCode_compareOperand right
    exact ⟨by simp, by simp [hmark hleft, hmark hright], by simp [hvar hleft, hvar hright]⟩
  | _ => exact ⟨by simp, by simp, by simp⟩

-- ==== all blocks

/-- Blocks one behind the other, each with the marks of its place in
front, and the marks that are left at the end. -/
def laid (marks : Nat → List StackOp) (start : Nat) : List (List StackOp) → List StackOp
  | [] => marks start
  | block :: rest => marks start ++ block ++ laid marks (start + 1) rest

theorem mem_laid {marks : Nat → List StackOp} {start : Nat}
    {blocks : List (List StackOp)} {op : StackOp} (h : op ∈ laid marks start blocks) :
    (∃ place, op ∈ marks place) ∨ ∃ block ∈ blocks, op ∈ block := by
  induction blocks generalizing start with
  | nil => exact .inl ⟨start, h⟩
  | cons block rest ih =>
    rw [laid, List.mem_append, List.mem_append] at h
    rcases h with (hmark | hblock) | hrest
    · exact .inl ⟨start, hmark⟩
    · exact .inr ⟨block, .head _, hblock⟩
    · rcases ih hrest with hmark | ⟨other, hother, hop⟩
      · exact .inl hmark
      · exact .inr ⟨other, .tail _ hother, hop⟩

namespace Lowering

variable {tables later : StackTables}

/-- The labels are kept in a hash table, which does not reduce. These are
its answers. -/
theorem marks_labelsByPlace_eq_filter (body : MethodBody) (place : Nat) :
    marks body.labelsByPlace place = (body.labels.filter fun label =>
        label.offset == some (UInt32.ofNat place)).map fun label => .mark label.index := by
  rw [marks, MethodBody.placedAt_labelsByPlace]

variable {lowering : Lowering} {method : String}

theorem not_mem_guardOps {op : StackOp}
    (h : op ≠ .callRoutine .ensureStack) : op ∉ lowering.guardOps := by
  unfold guardOps
  split
  · exact List.not_mem_nil
  · exact fun hmem => h (List.mem_singleton.1 hmem)

theorem Lowers.isBlockFor {entry : Instruction × Nat} {ops : List StackOp}
    (h : lowering.Lowers method entry ops) :
    IsBlockFor entry.1.operands ops := by
  obtain ⟨_, hshape⟩ := h.shape
  exact hshape.isBlockFor

/-- Code is made of a block for each instruction. -/
theorem exists_blocks_of_codeFrom {labels : LabelsByPlace} {start : Nat}
    {instructions : List Instruction} {code : List StackOp}
    (h : (lowering.codeFrom method labels start instructions).run tables
      = .ok code later) :
    ∃ blocks, List.Forall₂ (lowering.Lowers method) (instructions.zipIdx start) blocks
      ∧ code = laid (marks labels) start blocks := by
  induction instructions generalizing start tables code with
  | nil =>
    obtain ⟨rfl, -⟩ := run_pure_ok_iff.1 h
    exact ⟨[], .nil, rfl⟩
  | cons instruction rest ih =>
    obtain ⟨ops, middle, hops, h⟩ := run_bind_ok_iff.1 h
    obtain ⟨_, hothers, rfl⟩ := run_bind_pure_ok_iff.1 h
    obtain ⟨blocks, hblocks, rfl⟩ := ih hothers
    exact ⟨ops :: blocks, .cons ⟨tables, middle, hops⟩ hblocks, rfl⟩

/-- Blocks of the shapes of the instructions. -/
def HaveShapes (lowering : Lowering) (final : StackTables)
    (instructions : List Instruction) (raws : List (List StackOp)) : Prop :=
  List.Forall₂ (fun instruction raw =>
    BlockShape lowering.options.unchecked final instruction.operands raw)
    instructions raws

/-- Code is made of blocks that have shapes in the tables that a program
ends with, or one of the operands is to blame. -/
theorem within_codeFrom (final : StackTables) (method : String)
    (labels : LabelsByPlace) (start : Nat) (instructions : List Instruction) :
    (lowering.codeFrom method labels start instructions).Within final
      (fun code => ∃ raws, lowering.HaveShapes final instructions raws
        ∧ code = laid (marks labels) start raws)
      (Blames (instructions.flatMap (·.operands))) := by
  induction instructions generalizing start with
  | nil => exact within_pure ⟨[], .nil, rfl⟩
  | cons instruction rest ih =>
    have hfirst := (lowering.within_block final method start
      instruction).imp_error fun _ hblames => hblames.mono
        (List.subset_append_left _ (rest.flatMap (·.operands)))
    have hrest := (ih (start + 1)).imp_error fun _ hblames =>
      hblames.mono (List.subset_append_right instruction.operands _)
    refine hfirst.bind fun ops => hrest.map fun _ hothers hops => ?_
    obtain ⟨raws, hraws, rfl⟩ := hothers
    exact ⟨ops :: raws, .cons hops hraws, rfl⟩

theorem within_draft (final : StackTables) (owner : String) (method : Method) :
    (lowering.draft owner method).Within final
      (fun draft => ∃ raws, lowering.HaveShapes final method.body.instructions raws
          ∧ draft.ops = lowering.guardOps
            ++ laid (marks method.body.labelsByPlace) 0 raws)
      (Blames (method.body.instructions.flatMap (·.operands))) := by
  unfold draft
  split
  · exact within_throw nofun
  · refine (within_codeFrom final _ _ _ _).map fun _ hcode => ?_
    obtain ⟨raws, hraws, rfl⟩ := hcode
    exact ⟨raws, hraws, rfl⟩

/-- A draft has the variables of the method, and its code. -/
theorem exists_code_of_draft {owner : String} {method : Method} {draft : StackMethod}
    (h : (lowering.draft owner method).run tables = .ok draft later) :
    (∀ label ∈ method.body.labels, label.offset.isSome = true)
      ∧ draft.name = Text.join owner method.name
      ∧ draft.locals = (method.body.locals.map lowering.typedName).toArray
      ∧ ∃ code, draft.ops = lowering.guardOps ++ code
        ∧ (lowering.codeFrom (Text.join owner method.name)
          method.body.labelsByPlace 0 method.body.instructions).run tables
            = .ok code later := by
  unfold Lowering.draft at h
  split at h
  · cases h
  · rename_i hplaced
    obtain ⟨code, hcode, rfl⟩ := run_bind_pure_ok_iff.1 h
    refine ⟨fun label hlabel => ?_, rfl, rfl, code, rfl, hcode⟩
    have hnone := List.find?_eq_none.1 hplaced label hlabel
    simpa [Option.isSome_iff_ne_none] using hnone

/-- A local that the code of a method reaches is an operand of the
method. -/
theorem exists_operand_of_mem_code {labels : LabelsByPlace} {start : Nat}
    {instructions : List Instruction} {code : List StackOp} {access : Access} {slot : UInt16}
    (h : (lowering.codeFrom method labels start instructions).run tables
      = .ok code later) (hop : .var access .locals slot ∈ code) :
    ∃ instruction ∈ instructions, .var .locals slot ∈ instruction.operands := by
  have hmarks : ∀ place, StackOp.var access .locals slot ∉ marks labels place := by
    simp [marks]
  induction instructions generalizing start tables code with
  | nil =>
    obtain ⟨rfl, -⟩ := run_pure_ok_iff.1 h
    exact absurd hop (hmarks start)
  | cons instruction rest ih =>
    obtain ⟨ops, middle, hops, h⟩ := run_bind_ok_iff.1 h
    obtain ⟨_, hothers, rfl⟩ := run_bind_pure_ok_iff.1 h
    rcases List.mem_append.1 hop with hop | hop
    · have hlowers : lowering.Lowers method (instruction, start) ops := ⟨tables, middle, hops⟩
      have hin := (List.mem_append.1 hop).resolve_left (hmarks start)
      exact ⟨instruction, .head _, hlowers.isBlockFor.named access slot hin⟩
    · obtain ⟨other, hother, hslot⟩ := ih hothers hop
      exact ⟨other, .tail _ hother, hslot⟩

end Lowering

end StackAsm
