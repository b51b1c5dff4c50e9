/-
Lowering keeps the control flow. A label marks a place among the
instructions; in the code it is marked in front of the block of the
instruction at that place, once and nowhere else, and a branch to it ends
a block. Deferred compares are replaced after the marks are set, by more
operations than one, so the marks move; but a replacement stays inside
the block it is for.

# Shape of the argument

- `Filled`: code with each deferred compare replaced by some code of a
  compare, whatever the types. Replacing the compares fills a draft
  (`filled_of_patchCompares`), and filling respects pieces
  (`Filled.split`), so it fills each block on its own
  (`exists_blocks_of_filled`).
- Where the marks of a place lie among the blocks is a matter of `laid`
  alone (`count_laid`, `exists_laid_eq`).
- A branch is the last operation of its block (`Lowers.endsWithBranch`),
  and none is deferred, so it still is when the block is filled.
-/
import Mathlib.Data.List.Nodup
import StackAsm.Machine.Standard
import StackAsm.Proofs.StackCode.Blocks
import StackAsm.Proofs.StackCode.Compare

namespace StackAsm

-- ==== filled compares

/-- The code of a compare, for some types of its values. -/
def IsCompareCode (code : List StackOp) : Prop :=
  ∃ (lower upper : StackType) (slot : UInt16),
    code = (if lower.isValueType then
        [.var .store .locals slot, .box lower, .var .load .locals slot]
      else [])
      ++ StackMethod.boxing upper ++ [.callRoutine .compare]

/-- Code that differs from other code in its deferred compares only, which
are replaced. -/
inductive Filled : List StackOp → List StackOp → Prop where
  | nil : Filled [] []
  | keep {op : StackOp} {raw ops : List StackOp}
      (hop : op ≠ .pending .compare) (hrest : Filled raw ops) : Filled (op :: raw) (op :: ops)
  | compare {code raw ops : List StackOp} (hcode : IsCompareCode code) (hrest : Filled raw ops) :
      Filled (.pending .compare :: raw) (code ++ ops)

theorem IsCompareCode.ne_nil {code : List StackOp} (h : IsCompareCode code) : code ≠ [] := by
  obtain ⟨_, _, _, rfl⟩ := h
  simp

theorem IsCompareCode.unmarked {code : List StackOp}
    (h : IsCompareCode code) (label : UInt16) : .mark label ∉ code := by
  obtain ⟨_, _, _, rfl⟩ := h
  unfold StackMethod.boxing
  split <;> split <;> simp

namespace Filled

variable {raw ops : List StackOp}

theorem append {back rest : List StackOp} (h : Filled raw ops)
    (hback : Filled back rest) : Filled (raw ++ back) (ops ++ rest) := by
  induction h with
  | nil => exact hback
  | keep hop _ ih => exact .keep hop ih
  | compare hcode _ ih =>
    rw [List.append_assoc]
    exact .compare hcode ih

/-- What fills two pieces of code is made of two pieces. -/
theorem split {front back : List StackOp} (h : Filled (front ++ back) ops) :
    ∃ first second, ops = first ++ second ∧ Filled front first ∧ Filled back second := by
  induction front generalizing ops with
  | nil => exact ⟨[], ops, rfl, .nil, h⟩
  | cons op front ih =>
    cases h with
    | keep hop hrest =>
      obtain ⟨first, second, rfl, hfirst, hsecond⟩ := ih hrest
      exact ⟨op :: first, second, rfl, .keep hop hfirst, hsecond⟩
    | @compare code _ _ hcode hrest =>
      obtain ⟨first, second, rfl, hfirst, hsecond⟩ := ih hrest
      exact ⟨code ++ first, second, (List.append_assoc ..).symm, .compare hcode hfirst, hsecond⟩

/-- Code without a deferred compare has nothing to fill. -/
theorem eq_of_not_mem (h : Filled raw ops) (hraw : .pending .compare ∉ raw) : ops = raw := by
  induction h with
  | nil => rfl
  | keep _ _ ih => rw [ih fun hmem => hraw (.tail _ hmem)]
  | compare => exact absurd (.head _) hraw

theorem ne_nil (h : Filled raw ops) (hraw : raw ≠ []) : ops ≠ [] := by
  cases h with
  | nil => exact hraw
  | keep => exact List.cons_ne_nil _ _
  | compare hcode =>
    exact fun hnil => hcode.ne_nil (List.append_eq_nil_iff.1 hnil).1

theorem unmarked (h : Filled raw ops) {label : UInt16}
    (hraw : .mark label ∉ raw) : .mark label ∉ ops := by
  induction h with
  | nil => exact hraw
  | keep hop _ ih =>
    rw [List.mem_cons, not_or] at hraw ⊢
    exact ⟨hraw.1, ih hraw.2⟩
  | compare hcode _ ih =>
    rw [List.mem_append, not_or]
    exact ⟨hcode.unmarked label, ih fun hmem => hraw (.tail _ hmem)⟩

end Filled

namespace StackMethod

/-- One step: a compare becomes code of a compare. -/
theorem exists_code_of_settle {method made : StackMethod} {stack : StackTypes}
    (h : method.settle (.pending .compare, stack) = .ok made) :
    ∃ code, IsCompareCode code ∧ made.ops = code ++ method.ops := by
  obtain ⟨slot, hops, -⟩ := exists_slot_of_settle h
  exact ⟨_, ⟨stack.second, stack.top, slot, rfl⟩, hops⟩

/-- All steps: replacing the compares in front fills the code there. -/
theorem filled_of_patchFront (rev : List StackOp) (method : StackMethod)
    {final : StackMethod} (h : patchFront rev method = .ok final) :
    ∃ front, Filled rev.reverse front ∧ final.ops = front ++ method.ops := by
  induction rev generalizing method with
  | nil =>
    cases h
    exact ⟨[], .nil, rfl⟩
  | cons op rest ih =>
    rw [List.reverse_cons]
    by_cases hpending : op = .pending .compare
    · subst hpending
      rw [patchFront_compare] at h
      obtain ⟨made, hmade, h⟩ := bind_ok_iff.1 h
      obtain ⟨code, hcode, hops⟩ := exists_code_of_settle hmade
      obtain ⟨front, hfront, hfinal⟩ := ih made h
      refine ⟨front ++ code, hfront.append ?_, ?_⟩
      · rw [← List.append_nil code]
        exact .compare hcode .nil
      · rw [hfinal, hops, List.append_assoc]
    · rw [patchFront_of_ne hpending] at h
      obtain ⟨front, hfront, hfinal⟩ := ih (method.withOps (op :: method.ops)) h
      refine ⟨front ++ [op], hfront.append (.keep hpending .nil), ?_⟩
      rw [hfinal, List.append_assoc]
      rfl

theorem filled_of_patchCompares {method final : StackMethod}
    (h : method.patchCompares = .ok final) :
    Filled method.ops final.ops := by
  rw [patchCompares_eq_patchFront] at h
  obtain ⟨front, hfront, hfinal⟩ := filled_of_patchFront _ _ h
  rw [List.reverse_reverse] at hfront
  rw [hfinal]
  exact (List.append_nil front).symm ▸ hfront

end StackMethod

-- ==== marks among blocks

section Laid

variable {marks : Nat → List StackOp} {start : Nat} {blocks : List (List StackOp)}

/-- Code made of blocks is filled block by block, if the marks have
nothing to fill. -/
theorem exists_blocks_of_filled {ops : List StackOp}
    (hmarks : ∀ place, .pending .compare ∉ marks place) (h : Filled (laid marks start blocks) ops) :
    ∃ filled, List.Forall₂ Filled blocks filled ∧ ops = laid marks start filled := by
  induction blocks generalizing start ops with
  | nil => exact ⟨[], .nil, h.eq_of_not_mem (hmarks start)⟩
  | cons block rest ih =>
    obtain ⟨_, _, rfl, hfront, hback⟩ := h.split
    obtain ⟨_, second, rfl, hfirst, hsecond⟩ := hfront.split
    obtain ⟨filled, hfilled, rfl⟩ := ih hback
    rw [hfirst.eq_of_not_mem (hmarks start)]
    exact ⟨second :: filled, .cons hsecond hfilled, rfl⟩

/-- Blocks that are not empty take up room. -/
theorem length_le_length_laid (marks : Nat → List StackOp) (start : Nat)
    (h : ∀ block ∈ blocks, block ≠ []) :
    blocks.length ≤ (laid marks start blocks).length := by
  induction blocks generalizing start with
  | nil => exact Nat.zero_le _
  | cons block rest ih =>
    rw [List.forall_mem_cons] at h
    have hblock : 0 < block.length := List.length_pos_iff.2 h.1
    have hrest := ih (start + 1) h.2
    rw [laid, List.length_append, List.length_append, List.length_cons]
    omega

/-- Marks that agree wherever blocks begin or end lay the blocks the same
way. -/
theorem laid_congr {others : Nat → List StackOp}
    (h : ∀ place, place ≤ start + blocks.length → marks place = others place) :
    laid marks start blocks = laid others start blocks := by
  induction blocks generalizing start with
  | nil => exact h start (Nat.le_refl _)
  | cons block rest ih =>
    have hlength : (block :: rest).length = rest.length + 1 := rfl
    unfold laid
    rw [h start (by omega), ih fun place _ => h place (by omega)]

/-- An operation that is in the marks of one place only, and in no
block. -/
theorem count_laid {op : StackOp} {spot : Nat}
    (hmarks : ∀ place, (marks place).count op = if place = spot then 1 else 0)
    (hblocks : ∀ block ∈ blocks, op ∉ block) :
    (laid marks start blocks).count op
      = if start ≤ spot ∧ spot ≤ start + blocks.length then 1 else 0 := by
  induction blocks generalizing start with
  | nil =>
    rw [laid, hmarks]
    exact if_congr (by simp only [List.length_nil]; omega) rfl rfl
  | cons block rest ih =>
    rw [List.forall_mem_cons] at hblocks
    rw [laid, List.count_append, List.count_append, hmarks,
      List.count_eq_zero.2 hblocks.1, ih hblocks.2, List.length_cons]
    by_cases hhere : start = spot
    · rw [if_pos hhere, if_neg (by omega), if_pos (by omega)]
    · rw [if_neg hhere, Nat.zero_add]
      exact if_congr (by omega) rfl rfl

/-- Behind the marks of a place comes the block of that place, or the end
if there is none. -/
theorem exists_laid_eq (marks : Nat → List StackOp) (start : Nat)
    {spot : Nat} (h : spot ≤ blocks.length) :
    ∃ before after, laid marks start blocks
        = before ++ (marks (start + spot) ++ after)
      ∧ (∀ block, blocks[spot]? = some block → block <+: after)
      ∧ (spot = blocks.length → after = []) := by
  induction blocks generalizing start spot with
  | nil =>
    obtain rfl : spot = 0 := Nat.le_zero.1 h
    exact ⟨[], [], by simp [laid], by simp, fun _ => rfl⟩
  | cons block rest ih =>
    cases spot with
    | zero =>
      refine ⟨[], block ++ laid marks (start + 1) rest, ?_, ?_,
        fun hlast => absurd hlast.symm (Nat.succ_ne_zero _)⟩
      · rw [laid, List.append_assoc]
        rfl
      · intro other hother
        cases hother
        exact List.prefix_append _ _
    | succ =>
      obtain ⟨before, after, hlaid, hblock, hend⟩ := ih (start + 1) (Nat.le_of_succ_le_succ h)
      refine ⟨marks start ++ block ++ before, after, ?_, hblock,
        fun hlast => hend (Nat.succ.inj hlast)⟩
      rw [laid, hlaid, Nat.add_right_comm start 1, Nat.add_assoc start, List.append_assoc _ before]

end Laid

-- ==== labels

namespace MethodBody

variable (body : MethodBody)

/-- Marks of the labels that stand at a place. -/
def marksAt (place : Nat) : List StackOp :=
  (body.labels.filter fun label => label.offset.any (·.toNat == place)).map
    fun label => .mark label.index

variable {body}

theorem marks_labelsByPlace {place : Nat} (h : place < UInt32.size) :
    Lowering.marks body.labelsByPlace place = body.marksAt place := by
  have hsame : ∀ offset : UInt32, offset = UInt32.ofNat place ↔ offset.toNat = place := by
    intro offset
    rw [← UInt32.toNat_inj, UInt32.toNat_ofNat_of_lt' h]
  rw [Lowering.marks_labelsByPlace_eq_filter]
  congr 1
  refine List.filter_congr fun label _ => ?_
  cases label.offset with
  | none => rfl
  | some offset => simp [hsame offset]

theorem mem_marksAt {op : StackOp} {place : Nat} :
    op ∈ body.marksAt place ↔ ∃ label ∈ body.labels,
      (∃ offset, label.offset = some offset ∧ offset.toNat = place)
        ∧ op = .mark label.index := by
  unfold marksAt
  rw [List.mem_map]
  constructor
  · rintro ⟨label, hlabel, rfl⟩
    obtain ⟨hmem, hplace⟩ := List.mem_filter.1 hlabel
    obtain ⟨offset, hoffset, hspot⟩ := (Option.any_eq_true _ _).1 hplace
    exact ⟨label, hmem, ⟨offset, hoffset, eq_of_beq hspot⟩, rfl⟩
  · rintro ⟨label, hmem, ⟨offset, hoffset, rfl⟩, rfl⟩
    exact ⟨label, List.mem_filter.2 ⟨hmem, by simp [hoffset]⟩, rfl⟩

/-- The mark of a label is among those of its place only. -/
theorem count_marksAt (hnodup : (body.labels.map (·.index)).Nodup)
    {label : Label} (hlabel : label ∈ body.labels) {offset : UInt32}
    (hoffset : label.offset = some offset) (place : Nat) :
    (body.marksAt place).count (.mark label.index) = if place = offset.toNat then 1 else 0 := by
  have hmarks : (body.marksAt place).Nodup := by
    have hindices := hnodup.sublist (List.filter_sublist
      (p := fun label : Label => label.offset.any (·.toNat == place))
        |>.map (·.index))
    have hmark : Function.Injective StackOp.mark := fun _ _ hsame => by injection hsame
    have hmap := hindices.map hmark
    rw [List.map_map] at hmap
    exact hmap
  rw [hmarks.count]
  refine if_congr ?_ rfl rfl
  rw [mem_marksAt]
  constructor
  · rintro ⟨other, hother, ⟨_, hspot, rfl⟩, hop⟩
    have hindex : other.index = label.index := by injection hop.symm
    obtain rfl := List.inj_on_of_nodup_map hnodup hother hlabel hindex
    rw [hoffset] at hspot
    cases hspot
    rfl
  · rintro rfl
    exact ⟨label, hlabel, ⟨offset, hoffset, rfl⟩, rfl⟩

end MethodBody

-- ==== branches

/-- When the branch of a mnemonic is taken. -/
def BranchWhen.ofMnemonic? (mnemonic : String) : Option BranchWhen := match mnemonic with
  | "jmp" => some .always
  | "jt" | "jfl" => some .ifTrue
  | "jf" | "jnfl" => some .ifFalse
  | _ => none

/-- The code ends with the branch of the mnemonic, to the label among the
operands. -/
def EndsWithBranch (mnemonic : String) (operands : List Operand) (ops : List StackOp) : Prop :=
  ∀ index target, .label index target ∈ operands →
    ∃ front condition, BranchWhen.ofMnemonic? mnemonic = some condition
      ∧ ops = front ++ [.branch condition index]

/-- A branch is no compare, so it ends the code that is filled too. -/
theorem EndsWithBranch.filled {mnemonic : String} {operands : List Operand}
    {raw ops : List StackOp} (h : EndsWithBranch mnemonic operands raw)
    (hfilled : Filled raw ops) : EndsWithBranch mnemonic operands ops := by
  intro index target hlabel
  obtain ⟨_, condition, hcondition, rfl⟩ := h index target hlabel
  obtain ⟨first, _, rfl, -, hlast⟩ := hfilled.split
  exact ⟨first, condition, hcondition, by rw [hlast.eq_of_not_mem (by simp)]⟩

/-- Whether the rule makes a branch of the mnemonic. -/
def LoweringRule.MakesBranch (rule : LoweringRule) (mnemonic : String) :
    Prop := rule = .branch ∨ rule = .flagBranch ∧ mnemonic ∈ ["jfl", "jnfl"]

instance (rule : LoweringRule) (mnemonic : String) :
    Decidable (rule.MakesBranch mnemonic) := inferInstanceAs (Decidable (_ ∨ _))

/-- Forms of the standard set that take a label are lowered to a
branch. -/
theorem Form.makesBranch_of_label_mem :
    ∀ form ∈ InstructionSet.standard.forms, .label ∈ form.args →
      form.lowering.MakesBranch form.mnemonic := by
  decide

namespace LoweringContext

open Lower

variable (ctx : LoweringContext) {final : StackTables}

theorem within_branch_ends (index : UInt16) (target : Option UInt32) :
    (ctx.branch index).Within final (EndsWithBranch ctx.mnemonic [.label index target])
      fun _ => True := by
  have hlast : ∀ condition, BranchWhen.ofMnemonic? ctx.mnemonic = some condition →
        EndsWithBranch ctx.mnemonic [.label index target]
          [.branch condition index] := by
    intro condition hcondition other _ hlabel
    cases List.mem_singleton.1 hlabel
    exact ⟨[], condition, hcondition, rfl⟩
  unfold branch
  split
  case h_4 => exact within_throw trivial
  all_goals
    rename_i hmnemonic
    exact within_pure (hlast _ (by rw [hmnemonic]; rfl))

theorem endsWithBranch_flagBranch (h : ctx.mnemonic ∈ ["jfl", "jnfl"])
    (f : Flag) (index : UInt16) (target : Option UInt32) :
    EndsWithBranch ctx.mnemonic [.flag f, .label index target] (ctx.flagBranch f index) := by
  intro other _ hlabel
  rw [List.mem_cons, List.mem_singleton] at hlabel
  rcases hlabel with hlabel | hlabel
  · cases hlabel
  · cases hlabel
    refine ⟨[.readFlag f], _, ?_, rfl⟩
    rw [List.mem_cons, List.mem_singleton] at h
    rcases h with h | h <;> rw [h] <;> rfl

/-- A branch ends the block of its instruction. -/
theorem within_lower_ends {rule : LoweringRule}
    (h : rule.MakesBranch ctx.mnemonic) (operands : List Operand) :
    (ctx.lower rule operands).Within final
      (EndsWithBranch ctx.mnemonic operands) fun _ => True := by
  unfold LoweringRule.MakesBranch at h
  cases rule <;> dsimp only [lower]
  case branch =>
    split
    · exact ctx.within_branch_ends _ _
    · exact within_throw trivial
  case flagBranch =>
    split
    · exact within_pure (ctx.endsWithBranch_flagBranch (by simpa using h) _ _ _)
    · exact within_throw trivial
  all_goals simp at h

end LoweringContext

-- ==== methods

namespace Lowering

variable {ops : List StackOp}

variable (lowering : Lowering)

/-- The block that an instruction at a place of the method of that full
name becomes in the end. -/
structure BlockAt (method : String) (entry : Instruction × Nat) (block : List StackOp) : Prop where
  lowered : ∃ raw, lowering.Lowers method entry raw ∧ Filled raw block
  ne_nil : block ≠ []
  unmarked : ∀ label, .mark label ∉ block
  branch : ∀ form, lowering.set.get? entry.1.opcode = some form → .label ∈ form.args →
      EndsWithBranch form.mnemonic entry.1.operands block

/-- The code of a method goes the ways of its body. -/
structure KeepsFlow (method : String) (body : MethodBody)
    (blocks : List (List StackOp)) (ops : List StackOp) : Prop where
  /-- Every instruction has its block. -/
  forall₂ : List.Forall₂ (lowering.BlockAt method) body.instructions.zipIdx blocks
  /-- The guard, then the blocks, each behind the marks of the labels at
  its place, and the marks of the labels behind the last instruction. -/
  layout : ops = lowering.guardOps ++ laid body.marksAt 0 blocks
  /-- Every label is marked, and no label twice. -/
  once : ∀ label ∈ body.labels, ops.count (.mark label.index) = 1
  /-- Other marks of the same place aside, what follows the mark of a
  label is the block of the instruction at the place of the label, or the
  end. -/
  target : ∀ label ∈ body.labels, ∃ offset before others after, label.offset = some offset
      ∧ ops = before ++ .mark label.index :: (others ++ after)
      ∧ (∀ op ∈ others, op ∈ body.marksAt offset.toNat)
      ∧ (∀ block, blocks[offset.toNat]? = some block → block <+: after)
      ∧ (offset.toNat = body.instructions.length → after = [])

variable {lowering}

theorem Lowers.endsWithBranch {method : String} {entry : Instruction × Nat}
    (h : lowering.Lowers method entry ops) {form : Form}
    (hform : lowering.set.get? entry.1.opcode = some form)
    (hrule : form.lowering.MakesBranch form.mnemonic) :
    EndsWithBranch form.mnemonic entry.1.operands ops := by
  obtain ⟨_, later, hrun⟩ := h
  unfold block at hrun
  rw [hform] at hrun
  exact ((LoweringContext.within_lower_ends
    ⟨lowering.facts, lowering.options, method, entry.2, form.mnemonic⟩
    hrule entry.1.operands).ok hrun (.refl later)).2

/-- Where the marks lie follows from the layout. -/
theorem keepsFlow_of_layout {method : String} {body : MethodBody} {blocks : List (List StackOp)}
    (hblocks : List.Forall₂ (lowering.BlockAt method) body.instructions.zipIdx blocks)
    (hlayout : ops = lowering.guardOps ++ laid body.marksAt 0 blocks)
    (hnodup : (body.labels.map (·.index)).Nodup)
    (hplaces : ∀ label ∈ body.labels, ∃ offset, label.offset = some offset
      ∧ offset.toNat ≤ body.instructions.length) :
    lowering.KeepsFlow method body blocks ops := by
  have hlength : blocks.length = body.instructions.length := by
    rw [← hblocks.length_eq, List.length_zipIdx]
  -- marks stand between the blocks only
  have hunmarked : ∀ block ∈ blocks, ∀ label, .mark label ∉ block :=
    forall_mem_of_forall₂ hblocks fun _ _ _ hblock => hblock.unmarked
  have hguard : ∀ label, .mark label ∉ lowering.guardOps := fun _ => not_mem_guardOps nofun
  refine ⟨hblocks, hlayout, fun label hlabel => ?_, fun label hlabel => ?_⟩
  · obtain ⟨offset, hoffset, hplace⟩ := hplaces label hlabel
    rw [hlayout, List.count_append, List.count_eq_zero.2 (hguard _),
      count_laid (MethodBody.count_marksAt hnodup hlabel hoffset)
        fun block hblock => hunmarked block hblock _, if_pos ⟨Nat.zero_le _, by omega⟩]
  · obtain ⟨offset, hoffset, hplace⟩ := hplaces label hlabel
    obtain ⟨before, after, hlaid, hblock, hend⟩ := exists_laid_eq body.marksAt 0 (hlength ▸ hplace)
    obtain ⟨first, others, hmarks⟩ := List.append_of_mem
      (MethodBody.mem_marksAt.2 ⟨label, hlabel, ⟨offset, hoffset, rfl⟩, rfl⟩)
    refine ⟨offset, lowering.guardOps ++ before ++ first, others, after,
      hoffset, ?_, fun _ hop => ?_, hblock, hlength ▸ hend⟩
    · rw [hlayout, hlaid, Nat.zero_add, hmarks]
      simp only [List.append_assoc, List.cons_append]
    · rw [hmarks]
      exact List.mem_append_right _ (.tail _ hop)

/-- A draft is filled block by block. -/
theorem exists_layout_of_filled {labels : LabelsByPlace} {raws : List (List StackOp)}
    (h : Filled (lowering.guardOps ++ laid (marks labels) 0 raws) ops) :
    ∃ blocks, List.Forall₂ Filled raws blocks
      ∧ ops = lowering.guardOps ++ laid (marks labels) 0 blocks := by
  obtain ⟨_, _, rfl, hfirst, hsecond⟩ := h.split
  obtain ⟨blocks, hblocks, rfl⟩ := exists_blocks_of_filled (by simp [marks]) hsecond
  rw [hfirst.eq_of_not_mem (not_mem_guardOps (by simp))]
  exact ⟨blocks, hblocks, rfl⟩

/-- A method is made of blocks that have shapes in the tables that the
program ends with, their compares replaced. -/
theorem within_method (lowering : Lowering) (final : StackTables)
    (owner : String) (method : Method) :
    (lowering.method owner method).Within final
      (fun lowered => ∃ raws blocks, lowering.HaveShapes final method.body.instructions raws
          ∧ List.Forall₂ Filled raws blocks
          ∧ lowered.ops = lowering.guardOps
            ++ laid (marks method.body.labelsByPlace) 0 blocks)
      (Blames (method.body.instructions.flatMap (·.operands))) := by
  refine (within_draft final owner method).bind fun draft => ?_
  rcases draft.patchCompares_ends with ⟨_, hpatched⟩ | ⟨hfault, -⟩
  · simp only [hpatched]
    refine Lower.within_pure fun hdraft => ?_
    obtain ⟨raws, hraws, hops⟩ := hdraft
    have hfilled := StackMethod.filled_of_patchCompares hpatched
    rw [hops] at hfilled
    obtain ⟨blocks, hblocks, hlayout⟩ := exists_layout_of_filled hfilled
    exact ⟨raws, blocks, hraws, hblocks, hlayout⟩
  · simp only [hfault]
    exact Lower.within_throw nofun

section Flow

variable (hset : ∀ form ∈ lowering.set.forms, .label ∈ form.args →
  form.lowering.MakesBranch form.mnemonic)
include hset

theorem Lowers.blockAt {method : String} {entry : Instruction × Nat}
    {raw block : List StackOp} (h : lowering.Lowers method entry raw) (hfilled : Filled raw block) :
    lowering.BlockAt method entry block where
  lowered := ⟨raw, h, hfilled⟩
  ne_nil := hfilled.ne_nil h.isBlockFor.ne_nil
  unmarked label := hfilled.unmarked (h.isBlockFor.unmarked label)
  branch form hform hlabel :=
    (h.endsWithBranch hform (hset form (List.mem_of_find?_eq_some hform) hlabel)).filled hfilled

theorem forall₂_blockAt {method : String}
    {entries : List (Instruction × Nat)} {raws blocks : List (List StackOp)}
    (hraws : List.Forall₂ (lowering.Lowers method) entries raws)
    (hblocks : List.Forall₂ Filled raws blocks) :
    List.Forall₂ (lowering.BlockAt method) entries blocks := by
  induction hraws generalizing blocks with
  | nil =>
    cases hblocks
    exact .nil
  | cons hlowers _ ih =>
    cases hblocks with
    | cons hfilled hrest =>
      exact .cons (hlowers.blockAt hset hfilled) (ih hrest)

/-- The code of a method keeps the flow of its body. -/
theorem exists_keepsFlow {owner : String} {method : Method}
    {tables later : StackTables} {final : StackMethod}
    (h : (lowering.method owner method).run tables = .ok final later)
    (hnodup : (method.body.labels.map (·.index)).Nodup)
    (hplaces : ∀ label ∈ method.body.labels, ∀ offset ∈ label.offset,
      offset.toNat ≤ method.body.instructions.length) (hcount : final.ops.length < UInt32.size) :
    ∃ blocks, lowering.KeepsFlow (Text.join owner method.name) method.body blocks final.ops := by
  obtain ⟨draft, _, hdraft, h⟩ := run_bind_ok_iff.1 h
  obtain ⟨hplaced, -, -, _, hops, hcode⟩ := exists_code_of_draft hdraft
  obtain ⟨_, hraws, rfl⟩ := exists_blocks_of_codeFrom hcode
  have hfilled : Filled draft.ops final.ops := by
    split at h
    · cases h
    · rename_i patched hpatched
      obtain ⟨rfl, -⟩ := run_pure_ok_iff.1 h
      have hfilled := StackMethod.filled_of_patchCompares hpatched
      exact hfilled
  rw [hops] at hfilled
  obtain ⟨blocks, hblocks, hfinal⟩ := exists_layout_of_filled hfilled
  have hat := forall₂_blockAt hset hraws hblocks
  -- Places are counted in thirty-two bits. They do not run out, as there
  -- are no more instructions than operations.
  have hroom : blocks.length < UInt32.size := by
    have hne : ∀ block ∈ blocks, block ≠ [] :=
      forall_mem_of_forall₂ hat fun _ _ _ hblock => hblock.ne_nil
    have hlaid := length_le_length_laid (marks method.body.labelsByPlace) 0 hne
    rw [hfinal, List.length_append] at hcount
    omega
  refine ⟨blocks, keepsFlow_of_layout hat ?_ hnodup ?_⟩
  · rw [hfinal, laid_congr fun _ _ =>
      MethodBody.marks_labelsByPlace (by omega)]
  · intro label hlabel
    obtain ⟨offset, hoffset⟩ := Option.isSome_iff_exists.1 (hplaced label hlabel)
    exact ⟨offset, hoffset, hplaces label hlabel offset hoffset⟩

end Flow

end Lowering

-- ==== programs

/-- The run that lowers a program ends with its tables. -/
theorem Program.exists_run_of_lower {program : Program}
    {set : InstructionSet} {options : LoweringOptions}
    {lowered : StackModule} (h : program.lower set options = .ok lowered) :
    ∃ tables, ((Lowering.withBodies program).mapM fun entry =>
        (Lowering.mk set (ProgramFacts.ofProgram program) options).method
          entry.1 entry.2).run {} = .ok lowered.methods tables
      ∧ lowered.symbols = tables.symbols.toArray
      ∧ lowered.strings = tables.strings := by
  unfold lower at h
  simp only at h
  split at h
  · rename_i methods tables hrun
    cases h
    exact ⟨tables, hrun, rfl, rfl⟩
  · cases h

/-- Lowering keeps the control flow of every method whose labels have
indices of their own and stand no further than behind the last
instruction. Places are counted in thirty-two bits, so the code has to be
shorter than that. -/
theorem Program.keepsFlow_of_lower {program : Program}
    {options : LoweringOptions} {lowered : StackModule}
    (h : program.lower .standard options = .ok lowered) :
    List.Forall₂ (fun entry final =>
        (entry.2.body.labels.map (·.index)).Nodup →
        (∀ label ∈ entry.2.body.labels, ∀ offset ∈ label.offset,
          offset.toNat ≤ entry.2.body.instructions.length) →
        final.ops.length < UInt32.size →
        ∃ blocks, Lowering.KeepsFlow ⟨.standard, ProgramFacts.ofProgram program, options⟩
          (Text.join entry.1 entry.2.name) entry.2.body blocks final.ops)
      (Lowering.withBodies program) lowered.methods := by
  unfold lower at h
  simp only at h
  split at h
  · rename_i methods tables hrun
    cases h
    refine (forall₂_of_run_mapM hrun).imp ?_
    rintro entry final ⟨before, later, hmethod⟩ hnodup hplaces hcount
    exact Lowering.exists_keepsFlow Form.makesBranch_of_label_mem hmethod hnodup hplaces hcount
  · cases h

-- ==== a sample

namespace Sample

/-- A method with a label at the start, two behind the last instruction,
and a compare between them. -/
def looping : Method where
  name := "loop"
  attrs := ⟨Attributes.staticBit⟩
  body :=
    { labels := [⟨"top", 0, some 0⟩, ⟨"done", 1, some 5⟩, ⟨"end", 2, some 5⟩]
      instructions := [⟨.single 0x02, [.const (.i32 1)], 0⟩,
        ⟨.single 0x02, [.const (.i32 2)], 0⟩, ⟨.single 0x70, [], 0⟩,
        ⟨.single 0x53, [.flag .equal, .label 1 (some 5)], 0⟩,
        ⟨.single 0x50, [.label 0 (some 0)], 0⟩] }

def repetition : Program where
  namespaces := [⟨"App", [{ name := "Main", methods := [looping] }]⟩]

/-- The code of it. -/
def looped : StackMethod where
  name := "App.Main.loop"
  isStatic := true
  result := .void
  locals := #[⟨"$scratch0", .i32⟩]
  ops := [.callRoutine .ensureStack, .mark 0, .const (.i4 1),
    .const (.i4 2), .var .store .locals 0, .box .i32, .var .load .locals 0,
    .box .i32, .callRoutine .compare, .readFlag .equal,
    .branch .ifTrue 1, .branch .always 0, .mark 1, .mark 2]

/-- The code with the compare still deferred. -/
def deferring : List StackOp :=
  [.mark 0, .const (.i4 1), .const (.i4 2), .pending .compare,
    .readFlag .equal, .branch .ifTrue 1, .branch .always 0, .mark 1, .mark 2]

/-- What the program is lowered with. -/
def repeating : Lowering := ⟨.standard, ProgramFacts.ofProgram repetition, {}⟩

theorem run_codeFrom_looping :
    (repeating.codeFrom "App.Main.loop" looping.body.labelsByPlace 0
      looping.body.instructions).run {} = .ok deferring {} := by
  simp only [looping, Lowering.codeFrom, Lowering.marks_labelsByPlace_eq_filter]
  rfl

theorem lower_repetition : repetition.lower .standard {} = .ok ⟨#[], {}, [looped]⟩ := by
  have hdraft : (repeating.draft "App.Main" looping).run {} = .ok { looped with
          locals := #[], ops := .callRoutine .ensureStack :: deferring } {} :=
    run_bind_of_ok run_codeFrom_looping
  have hmethod : (repeating.method "App.Main" looping).run {} = .ok looped {} :=
    run_bind_of_ok hdraft
  have hmethods : ((Lowering.withBodies repetition).mapM fun entry =>
      repeating.method entry.1 entry.2).run {} = .ok [looped] {} :=
    run_mapM_cons_ok_iff.2 ⟨looped, {}, [], hmethod, run_mapM_nil_ok_iff.2 ⟨rfl, rfl⟩, rfl⟩
  unfold Program.lower
  rw [repeating] at hmethods
  simp only [hmethods]

end Sample

/-- The compare takes five operations, but the blocks and the marks stay
where they belong. -/
theorem Sample.keepsFlow_repetition :
    repetition.lower .standard {} = .ok ⟨#[], {}, [looped]⟩
      ∧ ∃ blocks, Lowering.KeepsFlow
        ⟨.standard, ProgramFacts.ofProgram repetition, {}⟩ "App.Main.loop"
        looping.body blocks looped.ops := by
  have hbodies : Lowering.withBodies repetition = [("App.Main", looping)] := by
    decide
  have hflow := Program.keepsFlow_of_lower lower_repetition
  rw [hbodies] at hflow
  cases hflow with
  | cons hflow =>
    exact ⟨lower_repetition, hflow (by decide) (by simp [looping]) (by decide)⟩

end StackAsm
