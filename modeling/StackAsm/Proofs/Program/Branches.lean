/-
Filling in branches. A branch is a label operand at some slot of some
instruction. The fixes of a method suit its code if they are the fixes of
its branches, one for each (`PatchQueue.Suits`). Whatever fixes are
applied to a body, it is the same but for the targets of its branches;
and if the fixes suit the code and nothing is wrong, then every label is
placed and every branch has the place of its label as target
(`BranchFixes.settled_of_apply`).
-/
import StackAsm.Program.Branches
import StackAsm.Proofs.Container.Method

namespace StackAsm

/-- Setting an item that looks the same changes nothing in that view. -/
theorem map_set_of_eq {α β : Type} {f : α → β} {items : List α} {i : Nat}
    {old new : α} (hold : items[i]? = some old) (h : f new = f old) :
    (items.set i new).map f = items.map f := by
  have hmap : (items.map f)[i]? = some (f old) := by
    rw [List.getElem?_map, hold, Option.map_some]
  obtain ⟨_, hvalue⟩ := List.getElem?_eq_some_iff.1 hmap
  rw [List.map_set, h, ← hvalue, List.set_getElem_self]

-- ==== branches

theorem Operand.unaimed_eq_label {operand : Operand} {index : UInt16} :
    operand.unaimed = .label index none ↔ ∃ target, operand = .label index target := by
  cases operand with
  | label => simp [unaimed]
  | _ => simp [unaimed]

namespace Instruction

/-- The operand at a slot of the instruction at a position. -/
def operandAt? (code : List Instruction) (position slot : Nat) :
    Option Operand := code[position]?.bind fun instruction => instruction.operands[slot]?

/-- Whether a branch to the label with that index stands at a slot of the
instruction at a position. -/
def IsBranch (code : List Instruction) (position slot : Nat) (index : UInt16) : Prop :=
  ∃ target, operandAt? code position slot = some (.label index target)

variable {code : List Instruction} {position slot : Nat} {index : UInt16}

theorem IsBranch.eq {other : UInt16} (h : IsBranch code position slot index)
    (hother : IsBranch code position slot other) : index = other := by
  obtain ⟨_, h⟩ := h
  obtain ⟨_, hother⟩ := hother
  rw [h] at hother
  cases hother
  rfl

theorem IsBranch.lt (h : IsBranch code position slot index) : position < code.length := by
  obtain ⟨_, h⟩ := h
  obtain ⟨_, hfound, -⟩ := Option.bind_eq_some_iff.1 h
  exact (List.getElem?_eq_some_iff.1 hfound).1

theorem operandAt?_append_left (h : position < code.length) (more : List Instruction) :
    operandAt? (code ++ more) position slot = operandAt? code position slot := by
  unfold operandAt?
  rw [List.getElem?_append_left h]

theorem operandAt?_append_self (code : List Instruction) (instruction : Instruction) :
    operandAt? (code ++ [instruction]) code.length slot = instruction.operands[slot]? := by
  unfold operandAt?
  rw [List.getElem?_concat_length]
  rfl

/-- Branches stay where they are when code is appended. -/
theorem IsBranch.append (h : IsBranch code position slot index) (more : List Instruction) :
    IsBranch (code ++ more) position slot index := by
  obtain ⟨target, hop⟩ := h
  refine ⟨target, ?_⟩
  rw [operandAt?_append_left (IsBranch.lt ⟨target, hop⟩)]
  exact hop

theorem IsBranch.of_append {more : List Instruction}
    (h : IsBranch (code ++ more) position slot index)
    (hlt : position < code.length) : IsBranch code position slot index := by
  obtain ⟨target, hop⟩ := h
  rw [operandAt?_append_left hlt] at hop
  exact ⟨target, hop⟩

/-- A change of every operand is seen at each of them. -/
theorem operandAt?_map {change : Instruction → Instruction}
    {f : Operand → Operand} (h : ∀ instruction,
      (change instruction).operands = instruction.operands.map f) :
    operandAt? (code.map change) position slot = (operandAt? code position slot).map f := by
  unfold operandAt?
  rw [List.getElem?_map]
  cases code[position]? with
  | none => rfl
  | some =>
    rw [Option.map_some, Option.bind_some, Option.bind_some, h, List.getElem?_map]

/-- Branches are the same whatever their targets. -/
theorem isBranch_iff : IsBranch code position slot index
    ↔ operandAt? (code.map unaimed) position slot
      = some (.label index none) := by
  rw [operandAt?_map fun _ => rfl, Option.map_eq_some_iff]
  constructor
  · rintro ⟨target, hop⟩
    exact ⟨_, hop, rfl⟩
  · rintro ⟨_, hop, hlabel⟩
    obtain ⟨target, rfl⟩ := Operand.unaimed_eq_label.1 hlabel
    exact ⟨target, hop⟩

theorem unaimed_of_setTarget? {instruction aimed : Instruction}
    {target : UInt32} (h : instruction.setTarget? slot target = some aimed) :
    aimed.unaimed = instruction.unaimed := by
  unfold setTarget? at h
  split at h
  · rename_i index old hop
    cases h
    exact congrArg (Instruction.mk instruction.opcode · 0) (map_set_of_eq hop rfl)
  · cases h

theorem operandAt?_set {instruction : Instruction} (hfound : code[position]? = some instruction)
    (hslot : slot < instruction.operands.length) (operand : Operand) (position' slot' : Nat) :
    operandAt? (code.set position { instruction with
        operands := instruction.operands.set slot operand })
        position' slot'
      = if position' = position ∧ slot' = slot then some operand
        else operandAt? code position' slot' := by
  have hlt := (List.getElem?_eq_some_iff.1 hfound).1
  unfold operandAt?
  by_cases hposition : position' = position
  · subst hposition
    rw [List.getElem?_set_self hlt, hfound, Option.bind_some, Option.bind_some]
    by_cases hsame : slot' = slot
    · subst hsame
      rw [if_pos ⟨rfl, rfl⟩, List.getElem?_set_self hslot]
    · rw [if_neg fun h => hsame h.2, List.getElem?_set_ne (Ne.symm hsame)]
  · rw [if_neg fun h => hposition h.1, List.getElem?_set_ne (Ne.symm hposition)]

end Instruction

open Instruction

theorem MethodBody.aimed_iff {body : MethodBody} :
    body.Aimed ↔ ∀ position slot index target, operandAt? body.instructions position slot
        = some (.label index target) → ∃ label place, body.labelAt? index = some label
        ∧ label.offset = some place ∧ target = some place := by
  constructor
  · intro h position slot index target hop
    obtain ⟨instruction, hfound, hslot⟩ := Option.bind_eq_some_iff.1 hop
    exact h instruction (List.mem_of_getElem? hfound) index target (List.mem_of_getElem? hslot)
  · intro h instruction hin index target hop
    obtain ⟨position, hposition⟩ := List.getElem?_of_mem hin
    obtain ⟨slot, hslot⟩ := List.getElem?_of_mem hop
    refine h position slot index target ?_
    rw [operandAt?, hposition]
    exact hslot

-- ==== fixes

/-- A branch to the label with that index, and where it stands. -/
structure Branch where
  key : PatchKey
  index : UInt16

namespace Branch

/-- The fix of the branch. -/
def fix (branch : Branch) : Patch OpenBody BranchFault := branchFix branch.key branch.index

/-- Whether the branch is one of the code. -/
def In (branch : Branch) (code : List Instruction) : Prop :=
  IsBranch code branch.key.position.toNat branch.key.slot.toNat branch.index

/-- Whether the branch has the place of its label as target. -/
def Aimed (branch : Branch) (body : OpenBody) : Prop :=
  ∃ place, body.offset? branch.index = some place
    ∧ operandAt? body.code.toList branch.key.position.toNat branch.key.slot.toNat
      = some (.label branch.index (some place))

end Branch

namespace OpenBody

/-- What filling in targets keeps of a body. -/
structure Keeps (body fixed : OpenBody) : Prop where
  labels : fixed.labels = body.labels
  code : fixed.code.toList.map unaimed = body.code.toList.map unaimed

variable {body fixed : OpenBody}

theorem Keeps.refl (body : OpenBody) : body.Keeps body := ⟨rfl, rfl⟩

theorem Keeps.trans {final : OpenBody} (hfirst : body.Keeps fixed)
    (hsecond : fixed.Keeps final) : body.Keeps final where
  labels := hsecond.labels.trans hfirst.labels
  code := hsecond.code.trans hfirst.code

theorem Keeps.branches (h : body.Keeps fixed) {position slot : Nat}
    {index : UInt16} : IsBranch fixed.code.toList position slot index
      ↔ IsBranch body.code.toList position slot index := by
  rw [isBranch_iff, isBranch_iff, h.code]

theorem Keeps.offset? (h : body.Keeps fixed) (index : UInt16) :
    fixed.offset? index = body.offset? index := by
  unfold OpenBody.offset?
  rw [h.labels]

/-- A target is filled in at one place, where a branch stands. -/
theorem setTarget?_some {key : PatchKey} {target : UInt32}
    (h : body.setTarget? key target = some fixed) :
    body.Keeps fixed
      ∧ ∃ index, IsBranch body.code.toList key.position.toNat key.slot.toNat index
        ∧ ∀ position slot, operandAt? fixed.code.toList position slot
          = if position = key.position.toNat ∧ slot = key.slot.toNat then
              some (.label index (some target))
            else operandAt? body.code.toList position slot := by
  have hlist := body.toList_setTarget? key target
  rw [h, Option.map_some, eq_comm, Option.map_eq_some_iff] at hlist
  obtain ⟨_, haimed, hset⟩ := hlist
  obtain ⟨_, hfound, haimed⟩ := Option.bind_eq_some_iff.1 haimed
  have hsame := unaimed_of_setTarget? haimed
  unfold Instruction.setTarget? at haimed
  split at haimed
  · rename_i index old hop
    cases haimed
    refine ⟨⟨?_, ?_⟩, index, ⟨old, ?_⟩, ?_⟩
    · obtain ⟨_, -, rfl⟩ := Option.map_eq_some_iff.1 h
      rfl
    · rw [← hset]
      exact map_set_of_eq hfound hsame
    · rw [operandAt?, hfound]
      exact hop
    · rw [← hset]
      exact operandAt?_set hfound (List.getElem?_eq_some_iff.1 hop).1 _
  · cases haimed

/-- Where a branch stands a target can be filled in. -/
theorem setTarget?_isSome {key : PatchKey} {index : UInt16}
    (h : IsBranch body.code.toList key.position.toNat key.slot.toNat index)
    (target : UInt32) : ∃ fixed, body.setTarget? key target = some fixed := by
  obtain ⟨_, hop⟩ := h
  obtain ⟨_, hfound, hslot⟩ := Option.bind_eq_some_iff.1 hop
  have hlist := body.toList_setTarget? key target
  rw [hfound, Option.bind_some, Instruction.setTarget?, hslot] at hlist
  obtain ⟨fixed, hfixed, -⟩ := Option.map_eq_some_iff.1 hlist
  exact ⟨fixed, hfixed⟩

end OpenBody

namespace Branch

variable {branch : Branch} {body fixed : OpenBody}

theorem exists_place_of_fix (h : branch.fix.run body = .ok fixed) :
    ∃ place, body.offset? branch.index = some place
      ∧ body.setTarget? branch.key place = some fixed := by
  unfold fix branchFix at h
  simp only at h
  split at h
  · cases h
  · rename_i place hplace
    split at h
    · rename_i other hother
      cases h
      exact ⟨place, hplace, hother⟩
    · cases h

theorem keeps_of_fix (h : branch.fix.run body = .ok fixed) : body.Keeps fixed := by
  obtain ⟨_, -, hset⟩ := exists_place_of_fix h
  exact (OpenBody.setTarget?_some hset).1

/-- The fix of a branch of the code succeeds if its label is placed. -/
theorem exists_fix {place : UInt32} (hbranch : branch.In body.code.toList)
    (hplace : body.offset? branch.index = some place) :
    ∃ fixed, branch.fix.run body = .ok fixed := by
  obtain ⟨fixed, hset⟩ := OpenBody.setTarget?_isSome hbranch place
  refine ⟨fixed, ?_⟩
  unfold fix branchFix
  simp only [hplace, hset]

/-- A fix aims its branch. -/
theorem aimed_of_fix (hbranch : branch.In body.code.toList)
    (h : branch.fix.run body = .ok fixed) : branch.Aimed fixed := by
  obtain ⟨place, hplace, hset⟩ := exists_place_of_fix h
  obtain ⟨-, _, hindex, hoperands⟩ := OpenBody.setTarget?_some hset
  refine ⟨place, ?_, ?_⟩
  · rw [(keeps_of_fix h).offset?]
    exact hplace
  · rw [hoperands, if_pos ⟨rfl, rfl⟩, IsBranch.eq hbranch hindex]

/-- A fix leaves branches that are aimed as they are. -/
theorem Aimed.fix {other : Branch} (haimed : other.Aimed body)
    (hbranch : branch.In body.code.toList)
    (h : branch.fix.run body = .ok fixed) : other.Aimed fixed := by
  obtain ⟨place, hplace, hother⟩ := haimed
  obtain ⟨_, htarget, hset⟩ := exists_place_of_fix h
  obtain ⟨-, _, hindex, hoperands⟩ := OpenBody.setTarget?_some hset
  refine ⟨place, ?_, ?_⟩
  · rw [(keeps_of_fix h).offset?]
    exact hplace
  · rw [hoperands]
    split
    · -- the same branch is aimed at the same place again
      rename_i hkey
      rw [hkey.1, hkey.2] at hother
      have hsame : branch.index = other.index := IsBranch.eq hbranch ⟨_, hother⟩
      rw [hsame] at htarget
      rw [hplace, Option.some.injEq] at htarget
      rw [htarget, ← IsBranch.eq hbranch hindex, hsame]
    · exact hother

end Branch

-- ==== queues

namespace PatchQueue

variable {branches : List Branch} {queue : PatchQueue OpenBody BranchFault}
  {code : List Instruction}

/-- What each fix keeps all of them keep. -/
theorem keeps_runAll {R : OpenBody → OpenBody → Prop} (hrefl : ∀ body, R body body)
    (htrans : ∀ {body fixed final}, R body fixed → R fixed final → R body final)
    (hfix : ∀ {branch : Branch} {body fixed}, branch.fix.run body = .ok fixed → R body fixed)
    (branches : List Branch) (body : OpenBody) :
    R body (runAll (branches.map Branch.fix) body).1 := by
  induction branches generalizing body with
  | nil => exact hrefl body
  | cons branch rest ih =>
    rw [List.map_cons, runAll]
    split
    · rename_i changed hrun
      exact htrans (hfix hrun) (ih changed)
    · exact ih body

/-- Fixes of branches of the code succeed if the labels are placed. -/
theorem failures_runAll {body : OpenBody}
    (hbranches : ∀ branch ∈ branches, branch.In body.code.toList)
    (hplaced : ∀ branch ∈ branches, ∃ place, body.offset? branch.index = some place) :
    (runAll (branches.map Branch.fix) body).2 = [] := by
  induction branches generalizing body with
  | nil => rfl
  | cons first rest ih =>
    obtain ⟨hfirst, hrest⟩ := List.forall_mem_cons.1 hbranches
    obtain ⟨⟨_, hplace⟩, hothers⟩ := List.forall_mem_cons.1 hplaced
    obtain ⟨_, hrun⟩ := Branch.exists_fix hfirst hplace
    have hkeeps := Branch.keeps_of_fix hrun
    rw [List.map_cons, runAll, hrun]
    refine ih (fun branch hmem => hkeeps.branches.2 (hrest branch hmem)) ?_
    intro branch hmem
    rw [hkeeps.offset?]
    exact hothers branch hmem

/-- Fixes of branches of the code that all succeed aim their branches. -/
theorem aimed_runAll {body : OpenBody} (hbranches : ∀ branch ∈ branches, branch.In body.code.toList)
    (hok : (runAll (branches.map Branch.fix) body).2 = []) :
    (∀ branch : Branch, branch.Aimed body → branch.Aimed (runAll (branches.map Branch.fix) body).1)
      ∧ ∀ branch ∈ branches,
        branch.Aimed (runAll (branches.map Branch.fix) body).1 := by
  induction branches generalizing body with
  | nil => exact ⟨fun _ h => h, nofun⟩
  | cons first rest ih =>
    obtain ⟨hfirst, hrest⟩ := List.forall_mem_cons.1 hbranches
    rw [List.map_cons, runAll] at hok ⊢
    split at hok
    · rename_i changed hrun
      have hchanged : ∀ branch ∈ rest, branch.In changed.code.toList :=
        fun branch hmem => (Branch.keeps_of_fix hrun).branches.2 (hrest branch hmem)
      obtain ⟨hlater, hall⟩ := ih hchanged hok
      refine ⟨fun branch h => hlater branch (h.fix hfirst hrun), ?_⟩
      rw [List.forall_mem_cons]
      exact ⟨hlater first (Branch.aimed_of_fix hfirst hrun), hall⟩
    · cases hok

/-- Whether the waiting patches are the fixes of those branches, and
these are the branches of the code, as long as its positions can be
counted in thirty-two bits. -/
structure Marks (queue : PatchQueue OpenBody BranchFault)
    (branches : List Branch) (code : List Instruction) : Prop where
  waiting : queue.waiting = branches.map Branch.fix
  sound : code.length ≤ UInt32.size → ∀ branch ∈ branches, branch.In code
  complete : code.length ≤ UInt32.size → ∀ position slot index,
    IsBranch code position slot index → ∃ branch ∈ branches,
      branch.key.position.toNat = position ∧ branch.key.slot.toNat = slot

/-- Whether the waiting patches are the fixes of the branches of the
code. -/
def Suits (queue : PatchQueue OpenBody BranchFault) (code : List Instruction) : Prop :=
  ∃ branches, queue.Marks branches code

/-- An instruction is appended together with the fixes of its branches. -/
theorem Marks.append {queue' : PatchQueue OpenBody BranchFault}
    {new : List Branch} {instruction : Instruction}
    (h : queue.Marks branches code) (hwaiting : queue'.waiting
      = (new.map Branch.fix).reverse ++ queue.waiting)
    (hposition : ∀ branch ∈ new, branch.key.position.toNat = code.length)
    (hsound : ∀ branch ∈ new, ∃ target, instruction.operands[branch.key.slot.toNat]?
        = some (.label branch.index target))
    (hcomplete : ∀ slot index target, instruction.operands[slot]? = some (.label index target) →
        ∃ branch ∈ new, branch.key.slot.toNat = slot) :
    queue'.Marks (new.reverse ++ branches) (code ++ [instruction]) where
  waiting := by
    rw [hwaiting, h.waiting, List.map_append, List.map_reverse]
  sound hsmall branch hbranch := by
    rw [List.length_append] at hsmall
    rw [List.mem_append, List.mem_reverse] at hbranch
    rcases hbranch with hbranch | hbranch
    · obtain ⟨target, hop⟩ := hsound branch hbranch
      refine ⟨target, ?_⟩
      rw [hposition branch hbranch, operandAt?_append_self]
      exact hop
    · exact (h.sound (by omega) branch hbranch).append _
  complete hsmall position slot index hbranch := by
    have hlt := hbranch.lt
    rw [List.length_append] at hsmall hlt
    rcases Nat.lt_succ_iff_lt_or_eq.1 hlt with hlt | rfl
    · obtain ⟨branch, hmem, hkey⟩ :=
        h.complete (by omega) position slot index (hbranch.of_append hlt)
      exact ⟨branch, List.mem_append_right _ hmem, hkey⟩
    · obtain ⟨target, hop⟩ := hbranch
      rw [operandAt?_append_self] at hop
      obtain ⟨branch, hmem, hslot⟩ := hcomplete slot index target hop
      exact ⟨branch, List.mem_append_left _ (List.mem_reverse.2 hmem), hposition branch hmem, hslot⟩

/-- Code with the same branches is suited as well. -/
theorem Suits.of_branches {code' : List Instruction} (h : queue.Suits code)
    (hlength : code'.length = code.length)
    (hbranches : ∀ position slot index, IsBranch code' position slot index
        ↔ IsBranch code position slot index) : queue.Suits code' := by
  obtain ⟨branches, hwaiting, hsound, hcomplete⟩ := h
  refine ⟨branches, hwaiting, ?_, ?_⟩
  · intro hsmall branch hbranch
    exact (hbranches ..).2 (hsound (hlength ▸ hsmall) branch hbranch)
  · intro hsmall position slot index hbranch
    exact hcomplete (hlength ▸ hsmall) position slot index ((hbranches ..).1 hbranch)

/-- Code that differs in targets only is suited as well. -/
theorem Suits.of_unaimed {code' : List Instruction} (h : queue.Suits code)
    (hcode : code'.map unaimed = code.map unaimed) : queue.Suits code' := by
  have hlength := congrArg List.length hcode
  rw [List.length_map, List.length_map] at hlength
  refine h.of_branches hlength fun _ _ _ => ?_
  rw [isBranch_iff, isBranch_iff, hcode]

/-- Patches are run in another order than they came. -/
theorem schedule_of_waiting (h : queue.waiting = branches.map Branch.fix) :
    ∃ sorted : List Branch, sorted.Perm branches ∧ queue.schedule = sorted.map Branch.fix := by
  refine ⟨branches.mergeSort fun a b => !a.key.below b.key, List.mergeSort_perm .., ?_⟩
  rw [schedule, h, eq_comm]
  apply List.map_mergeSort
  intro a _ b _
  rfl

end PatchQueue

-- ==== methods

/-- Whether the labels of a body are placed and its branches aimed, as
long as its positions can be counted in thirty-two bits. -/
structure MethodBody.Settled (body : MethodBody) : Prop where
  placed : ∀ label ∈ body.labels, label.offset.isSome = true
  aimed : body.instructions.length ≤ UInt32.size → body.Aimed

namespace BranchFixes

variable {fixes : BranchFixes} {method : Method} {body : MethodBody}

/-- Whether the fixes are those of a method. -/
structure Suits (fixes : BranchFixes) (method : Method) : Prop where
  name : method.name = fixes.method
  lines : fixes.labelLines.length = method.body.labels.length
  queue : fixes.queue.Suits method.body.instructions

/-- What applying fixes does: labels that were never placed are reported,
or else all fixes are run and those that fail are. -/
theorem apply_cases (fixes : BranchFixes) (body : MethodBody) :
    (fixes.unplaced body ≠ []
      ∧ fixes.apply body = (body, fixes.unplaced body))
    ∨ (fixes.unplaced body = []
      ∧ (fixes.apply body).1 = { body with
        instructions := (PatchQueue.runAll fixes.queue.schedule (.ofBody body)).1.code.toList }
      ∧ ((fixes.apply body).2 = [] ↔ (PatchQueue.runAll fixes.queue.schedule (.ofBody body)).2
          = [])) := by
  unfold apply
  split
  · rename_i hplaced
    refine .inr ⟨hplaced, rfl, ?_⟩
    rw [List.map_eq_nil_iff, PatchQueue.apply]
    simp only
    split
    · rename_i hverdict
      split at hverdict
      · rename_i hempty
        exact iff_of_true rfl (List.isEmpty_iff.1 hempty)
      · cases hverdict
    · rename_i hverdict
      split at hverdict
      · cases hverdict
      · cases hverdict
        exact Iff.rfl
  · rename_i hunplaced
    exact .inl ⟨hunplaced, rfl⟩

/-- With a line for every label, those that were never placed are all
reported. -/
theorem unplaced_eq_nil (hlines : fixes.labelLines.length
      = body.labels.length) :
    fixes.unplaced body = [] ↔ ∀ label ∈ body.labels, label.offset.isSome = true := by
  rw [unplaced, List.map_eq_nil_iff, List.filter_eq_nil_iff]
  constructor
  · intro h label hlabel
    obtain ⟨place, hplace⟩ := List.getElem?_of_mem hlabel
    have hlt := (List.getElem?_eq_some_iff.1 hplace).1
    rw [← hlines] at hlt
    have hzip : (body.labels.zip fixes.labelLines)[place]?
        = some (label, fixes.labelLines[place]) := by
      rw [List.getElem?_zip_eq_some]
      exact ⟨hplace, List.getElem?_eq_getElem hlt⟩
    have hsome := h _ (List.mem_of_getElem? hzip)
    rwa [Bool.not_eq_true, Option.isNone_eq_false_iff] at hsome
  · rintro h ⟨label, _⟩ hentry
    have hsome := h label (List.of_mem_zip hentry).1
    simp [Option.isNone_eq_false_iff.2 hsome]

/-- Applying fixes changes nothing but the targets of branches. -/
theorem keeps_of_apply (hsuits : fixes.queue.Suits body.instructions) :
    (fixes.apply body).1.locals = body.locals
      ∧ (fixes.apply body).1.labels = body.labels
      ∧ (fixes.apply body).1.instructions.map unaimed
        = body.instructions.map unaimed := by
  rcases fixes.apply_cases body with ⟨-, happly⟩ | ⟨-, hbody, -⟩
  · rw [happly]
    exact ⟨rfl, rfl, rfl⟩
  · obtain ⟨_, hmarks⟩ := hsuits
    obtain ⟨sorted, -, hsorted⟩ := PatchQueue.schedule_of_waiting hmarks.waiting
    have hkeeps := PatchQueue.keeps_runAll OpenBody.Keeps.refl .trans
      Branch.keeps_of_fix sorted (.ofBody body)
    rw [hbody, hsorted]
    exact ⟨rfl, rfl, hkeeps.code⟩

/-- Fixes that suit a method and find nothing wrong settle it. -/
theorem settled_of_apply (hsuits : fixes.Suits method) (h : (fixes.apply method.body).2 = []) :
    (fixes.apply method.body).1.Settled := by
  obtain ⟨-, hlabels, hcode⟩ := keeps_of_apply hsuits.queue
  obtain ⟨_, hwaiting, hsound, hcomplete⟩ := hsuits.queue
  obtain ⟨sorted, hperm, hsorted⟩ := PatchQueue.schedule_of_waiting hwaiting
  rcases fixes.apply_cases method.body with
    ⟨hunplaced, happly⟩ | ⟨hplaced, hbody, hnone⟩
  · rw [happly] at h
    exact absurd h hunplaced
  have hok := hnone.1 h
  rw [hsorted] at hbody hok
  constructor
  · rw [hlabels]
    exact (unplaced_eq_nil hsuits.lines).1 hplaced
  intro hsmall
  have hlength := congrArg List.length hcode
  rw [List.length_map, List.length_map] at hlength
  rw [hlength] at hsmall
  have hin : ∀ branch ∈ sorted, branch.In (OpenBody.ofBody method.body).code.toList :=
    fun branch hbranch => hsound hsmall branch (hperm.mem_iff.1 hbranch)
  obtain ⟨-, haimed⟩ := PatchQueue.aimed_runAll hin hok
  -- every branch of the code is one that the queue had
  rw [MethodBody.aimed_iff]
  intro position slot index target hop
  have hbranch : IsBranch method.body.instructions position slot index := by
    rw [isBranch_iff, ← hcode, ← isBranch_iff]
    exact ⟨target, hop⟩
  obtain ⟨branch, hmem, rfl, rfl⟩ := hcomplete hsmall position slot index hbranch
  obtain ⟨place, hplace, haim⟩ := haimed branch (hperm.mem_iff.2 hmem)
  rw [hbody] at hop
  rw [hop] at haim
  cases haim
  have hkeeps := PatchQueue.keeps_runAll OpenBody.Keeps.refl .trans
    Branch.keeps_of_fix sorted (.ofBody method.body)
  rw [hkeeps.offset?] at hplace
  obtain ⟨label, hlabel, hoffset⟩ := Option.bind_eq_some_iff.1 hplace
  refine ⟨label, place, ?_, hoffset, rfl⟩
  rw [MethodBody.labelAt?, hlabels]
  exact hlabel

/-- In code whose branches have their labels in the table, nothing but an
unplaced label can be wrong. -/
theorem complaints_apply (hsuits : fixes.Suits method)
    (hsmall : method.body.instructions.length ≤ UInt32.size)
    (hlabels : ∀ position slot index, IsBranch method.body.instructions position slot index →
        index ∈ method.body.labels.map (·.index)) :
    (fixes.apply method.body).2 = fixes.unplaced method.body := by
  rcases fixes.apply_cases method.body with
    ⟨-, happly⟩ | ⟨hplaced, -, hnone⟩
  · rw [happly]
  rw [hplaced]
  refine hnone.2 ?_
  obtain ⟨_, hwaiting, hsound, -⟩ := hsuits.queue
  obtain ⟨sorted, hperm, hsorted⟩ := PatchQueue.schedule_of_waiting hwaiting
  have hin : ∀ branch ∈ sorted, branch.In method.body.instructions :=
    fun branch hbranch => hsound hsmall branch (hperm.mem_iff.1 hbranch)
  rw [hsorted]
  refine PatchQueue.failures_runAll hin fun branch hbranch => ?_
  -- the first label with the index of the branch is placed
  have hindex := hlabels _ _ _ (hin branch hbranch)
  obtain ⟨label, hlabel, heq⟩ := List.mem_map.1 hindex
  have hsome : (method.body.labels.find? (·.index == branch.index)).isSome = true :=
    List.find?_isSome.2 ⟨label, hlabel, beq_iff_eq.2 heq⟩
  obtain ⟨first, hfirst⟩ := Option.isSome_iff_exists.1 hsome
  have hoffset := (unplaced_eq_nil hsuits.lines).1 hplaced first (List.mem_of_find?_eq_some hfirst)
  obtain ⟨place, hplace⟩ := Option.isSome_iff_exists.1 hoffset
  refine ⟨place, ?_⟩
  exact Option.bind_eq_some_iff.2 ⟨first, hfirst, hplace⟩

end BranchFixes

end StackAsm
