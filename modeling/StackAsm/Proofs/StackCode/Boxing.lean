/-
Compares find objects. A compare looks at the two topmost values of the
stack, and none of them may be a value that is not boxed. Boxes are chosen
by the types that were inferred while the code in front was not yet
complete: the compares there were still to be replaced, and with locals
that did not exist yet. So it has to be shown that the types are those of
the finished code.

# Shape of the argument

- Boxes make objects of the two topmost types and leave the rest of the
  stack alone (`foldl_compareBoxes`). So the compare behind them finds
  objects, and the stack behind it is that of the deferred compare.
- `Boxed`: code whose deferred compares are replaced for the very types
  that the finished code has there. Replacing the compares leads to it
  (`boxed_of_patchFront`), as later locals change no type in code that
  declares its own. Both codes then run through the same stacks, block by
  block (`exists_blocks_of_boxed`).
- Compares that were not deferred have their boxes in their block
  (`BlockShape.comparesObjects`).
-/
import StackAsm.Proofs.StackCode.ControlFlow
import StackAsm.Proofs.StackCode.Substitution

namespace StackAsm

/-- The type of a value once it is boxed, if it has to be. -/
def StackType.boxed (type : StackType) : StackType := if type.isValueType then .obj else type

theorem StackType.isValueType_boxed (type : StackType) : type.boxed.isValueType = false := by
  unfold boxed
  split
  · rfl
  · exact Bool.eq_false_iff.2 ‹_›

namespace StackMethod

variable {slot : UInt16} {final : StackMethod}

-- ==== compares in code

/-- Every compare among the operations, run from that stack on, finds no
value that is not boxed. -/
def ComparesObjects (method : StackMethod) : StackTypes → List StackOp → Prop
  | _, [] => True
  | stack, op :: rest =>
    (op = .callRoutine .compare → ∀ type ∈ stack.take 2, type.isValueType = false)
      ∧ ComparesObjects method (method.effect stack op) rest

variable {method : StackMethod} {stack : StackTypes}

theorem comparesObjects_append {front back : List StackOp} :
    method.ComparesObjects stack (front ++ back)
      ↔ method.ComparesObjects stack front
        ∧ method.ComparesObjects (front.foldl method.effect stack) back := by
  induction front generalizing stack with
  | nil => exact ⟨fun h => ⟨trivial, h⟩, And.right⟩
  | cons op front ih =>
    rw [List.cons_append, List.foldl_cons, ComparesObjects, ih, ComparesObjects, and_assoc]

theorem comparesObjects_of_not_mem {ops : List StackOp}
    (h : .callRoutine .compare ∉ ops) : method.ComparesObjects stack ops := by
  induction ops generalizing stack with
  | nil => trivial
  | cons op rest ih =>
    rw [List.mem_cons, not_or] at h
    exact ⟨fun hop => absurd hop.symm h.1, ih h.2⟩

/-- The stack in front of each compare. -/
theorem ComparesObjects.stackAt {position : Nat} (h : method.ComparesObjects [] method.ops)
    (hop : method.ops[position]? = some (.callRoutine .compare)) :
    ∀ type ∈ (method.stackAt position).take 2, type.isValueType = false := by
  obtain ⟨hinside, hcompare⟩ := List.getElem?_eq_some_iff.1 hop
  rw [← List.take_append_drop position method.ops, List.drop_eq_getElem_cons hinside, hcompare,
    comparesObjects_append] at h
  exact h.2.1 rfl

-- ==== boxes

theorem foldl_boxing (method : StackMethod) (type : StackType) (stack : StackTypes) :
    (boxing type).foldl method.effect (type :: stack) = type.boxed :: stack := by
  unfold boxing StackType.boxed
  split <;> rfl

/-- Boxes make objects of the two topmost values. -/
theorem foldl_compareBoxes (hslot : stack.second.isValueType = true →
      method.variableType .locals slot = stack.top) :
    (compareBoxes stack slot).foldl method.effect stack
      = (stack.take 2).map StackType.boxed ++ stack.drop 2 := by
  unfold compareBoxes
  rw [List.foldl_append]
  -- A stack of one value or none has no lower value to box.
  match stack with
  | [] => rfl
  | [upper] => exact method.foldl_boxing upper []
  | upper :: lower :: rest =>
    have hlower : (if lower.isValueType then
          [.var .store .locals slot, .box lower, .var .load .locals slot]
        else []).foldl method.effect (upper :: lower :: rest)
        = upper :: lower.boxed :: rest := by
      unfold StackType.boxed
      split
      · rename_i hvalue
        show method.variableType .locals slot :: .obj :: rest = _
        rw [hslot hvalue]
        rfl
      · rfl
    exact (congrArg ((boxing upper).foldl method.effect) hlower).trans (method.foldl_boxing upper _)

/-- The code of a compare does to the stack what the deferred compare
does. -/
theorem foldl_compare (hslot : stack.second.isValueType = true →
      method.variableType .locals slot = stack.top) :
    (compareBoxes stack slot ++ [StackOp.callRoutine .compare]).foldl method.effect stack
      = method.effect stack (.pending .compare) := by
  rw [List.foldl_append, foldl_compareBoxes hslot]
  match stack with
  | [] => rfl
  | [upper] => rfl
  | upper :: lower :: rest => rfl

theorem comparesObjects_compare (hslot : stack.second.isValueType = true →
      method.variableType .locals slot = stack.top) :
    method.ComparesObjects stack (compareBoxes stack slot ++ [.callRoutine .compare]) := by
  have hboxes : .callRoutine .compare ∉ compareBoxes stack slot := by
    unfold compareBoxes boxing
    split <;> split <;> simp
  have hobjects : ∀ type ∈ ((stack.take 2).map StackType.boxed
      ++ stack.drop 2).take 2, type.isValueType = false := by
    match stack with
    | [] => simp
    | [upper] => simp [StackType.isValueType_boxed]
    | upper :: lower :: rest => simp [StackType.isValueType_boxed]
  rw [comparesObjects_append, foldl_compareBoxes hslot]
  exact ⟨comparesObjects_of_not_mem hboxes, fun _ => hobjects, trivial⟩

-- ==== boxed code

/-- The second code is the first with its deferred compares replaced, for
the types that a method with that code has on the stack there. -/
inductive Boxed (method : StackMethod) : StackTypes → List StackOp → List StackOp → Prop where
  | nil {stack : StackTypes} : Boxed method stack [] []
  | keep {stack : StackTypes} {op : StackOp} {raw ops : List StackOp} (hop : op ≠ .pending .compare)
      (hrest : Boxed method (method.effect stack op) raw ops) :
      Boxed method stack (op :: raw) (op :: ops)
  | compare {stack : StackTypes} {slot : UInt16} {raw ops : List StackOp}
      (hslot : stack.second.isValueType = true → method.variableType .locals slot = stack.top)
      (hrest : Boxed method (method.effect stack (.pending .compare)) raw ops) :
      Boxed method stack (.pending .compare :: raw)
        (compareBoxes stack slot ++ [.callRoutine .compare] ++ ops)

namespace Boxed

variable {raw ops : List StackOp}

theorem filled (h : Boxed method stack raw ops) : Filled raw ops := by
  induction h with
  | nil => exact .nil
  | keep hop _ ih => exact .keep hop ih
  | @compare stack slot _ _ _ _ ih =>
    exact .compare ⟨stack.second, stack.top, slot, rfl⟩ ih

theorem append {back rest : List StackOp} (h : Boxed method stack raw ops)
    (hback : Boxed method (raw.foldl method.effect stack) back rest) :
    Boxed method stack (raw ++ back) (ops ++ rest) := by
  induction h with
  | nil => exact hback
  | keep hop _ ih => exact .keep hop (ih hback)
  | compare hslot _ ih =>
    rw [List.append_assoc]
    exact .compare hslot (ih hback)

/-- Two pieces of code, one behind the other. -/
theorem split {front back : List StackOp} (h : Boxed method stack (front ++ back) ops) :
    ∃ first second, ops = first ++ second
      ∧ Boxed method stack front first
      ∧ Boxed method (front.foldl method.effect stack) back second := by
  induction front generalizing stack ops with
  | nil => exact ⟨[], ops, rfl, .nil, h⟩
  | cons op front ih =>
    cases h with
    | keep hop hrest =>
      obtain ⟨first, second, rfl, hfirst, hsecond⟩ := ih hrest
      exact ⟨op :: first, second, rfl, .keep hop hfirst, hsecond⟩
    | @compare _ slot _ _ hslot hrest =>
      obtain ⟨first, second, rfl, hfirst, hsecond⟩ := ih hrest
      exact ⟨_, second, (List.append_assoc ..).symm, .compare hslot hfirst, hsecond⟩

/-- Both codes lead to the same stack. -/
theorem foldl_eq (h : Boxed method stack raw ops) :
    ops.foldl method.effect stack = raw.foldl method.effect stack := by
  induction h with
  | nil => rfl
  | keep _ _ ih => exact ih
  | compare hslot _ ih =>
    rw [List.foldl_append, foldl_compare hslot, List.foldl_cons]
    exact ih

/-- If the compares that were not deferred find objects, then all do. -/
theorem comparesObjects (h : Boxed method stack raw ops) (hraw : method.ComparesObjects stack raw) :
    method.ComparesObjects stack ops := by
  induction h with
  | nil => trivial
  | keep _ _ ih => exact ⟨hraw.1, ih hraw.2⟩
  | compare hslot _ ih =>
    rw [comparesObjects_append, foldl_compare hslot]
    exact ⟨comparesObjects_compare hslot, ih hraw.2⟩

end Boxed

-- ==== replacing compares

theorem extends_of_patchFront {rev : List StackOp}
    (h : patchFront rev method = .ok final) : final.Extends method := by
  induction rev generalizing method with
  | nil =>
    cases h
    exact ⟨rfl, Nat.le_refl _, fun _ _ => rfl⟩
  | cons op rest ih =>
    by_cases hpending : op = .pending .compare
    · subst hpending
      rw [patchFront_compare] at h
      obtain ⟨_, hmade, h⟩ := bind_ok_iff.1 h
      exact (extends_of_settle hmade).trans (ih h)
    · rw [patchFront_of_ne hpending] at h
      have hmore := ih h
      exact ⟨hmore.params, hmore.size, hmore.locals⟩

theorem Extends.variableType {later : StackMethod}
    (h : later.Extends method) (hslot : slot.toNat < method.locals.size) :
    later.variableType .locals slot = method.variableType .locals slot := by
  unfold StackMethod.variableType
  simp only [h.locals _ hslot]

/-- Compares are replaced for the types of the finished code. Here
`draft` has the locals that the code declares; the method may have more
by now, and will have more in the end. -/
theorem boxed_of_patchFront {draft : StackMethod} (rev : List StackOp)
    (hdeclared : ∀ op ∈ rev, draft.declares op = true)
    (hmore : method.Extends draft) (h : patchFront rev method = .ok final) :
    ∃ front, Boxed final [] rev.reverse front ∧ final.ops = front ++ method.ops := by
  induction rev generalizing method with
  | nil =>
    cases h
    exact ⟨[], .nil, rfl⟩
  | cons op rest ih =>
    have hlater := hmore.trans (extends_of_patchFront h)
    rw [List.forall_mem_cons] at hdeclared
    rw [List.reverse_cons]
    by_cases hpending : op = .pending .compare
    · subst hpending
      rw [patchFront_compare] at h
      obtain ⟨_, hmade, h⟩ := bind_ok_iff.1 h
      obtain ⟨slot, hops, hscratch⟩ := exists_slot_of_settle hmade
      obtain ⟨front, hfront, hfinal⟩ := ih hdeclared.2 (hmore.trans (extends_of_settle hmade)) h
      -- the code before it uses declared locals only, so later ones do not matter
      have hstack : rest.reverse.foldl method.effect [] = rest.reverse.foldl final.effect [] := by
        have hrest : ∀ op ∈ rest.reverse, draft.declares op = true :=
          fun op hop => hdeclared.2 op (List.mem_reverse.1 hop)
        rw [foldl_effect_of_declares hmore hrest, foldl_effect_of_declares hlater hrest]
      rw [hstack] at hops hscratch
      have hslot : (rest.reverse.foldl final.effect []).second.isValueType = true →
          final.variableType .locals slot
            = (rest.reverse.foldl final.effect []).top := by
        intro hvalue
        obtain ⟨hinside, htype⟩ := hscratch hvalue
        rw [(extends_of_patchFront h).variableType hinside, htype]
      refine ⟨_, hfront.append (.compare hslot .nil), ?_⟩
      rw [hfinal, hops, List.append_nil, ← List.append_assoc]
    · rw [patchFront_of_ne hpending] at h
      have hsame : (method.withOps (op :: method.ops)).Extends draft :=
        ⟨hmore.params, hmore.size, hmore.locals⟩
      obtain ⟨front, hfront, hfinal⟩ := ih hdeclared.2 hsame h
      refine ⟨front ++ [op], hfront.append (.keep hpending .nil), ?_⟩
      rw [hfinal, List.append_assoc]
      rfl

theorem boxed_of_patchCompares {draft : StackMethod}
    (hdeclared : draft.ops.all draft.declares = true) (h : draft.patchCompares = .ok final) :
    final.Extends draft ∧ Boxed final [] draft.ops final.ops := by
  rw [patchCompares_eq_patchFront] at h
  have hbare : (draft.withOps []).Extends draft := ⟨rfl, Nat.le_refl _, fun _ _ => rfl⟩
  obtain ⟨front, hfront, hfinal⟩ := boxed_of_patchFront draft.ops.reverse (fun op hop =>
      List.all_eq_true.1 hdeclared op (List.mem_reverse.1 hop)) hbare h
  rw [List.reverse_reverse] at hfront
  have hops : final.ops = front := hfinal.trans (List.append_nil front)
  exact ⟨hbare.trans (extends_of_patchFront h), hops ▸ hfront⟩

/-- The stack behind the first operations. -/
theorem stackAt_length {front : List StackOp} (h : front <+: method.ops) :
    method.stackAt front.length = front.foldl method.effect [] := by
  obtain ⟨_, hback⟩ := h
  unfold stackAt
  rw [← hback, List.take_left]

/-- Types are inferred from variables and code only. -/
theorem effect_withInlined (method : StackMethod) (inlined : Bool) :
    { method with inlined }.effect = method.effect := by
  funext stack op
  cases op with
  | var access | element access => cases access <;> rfl
  | branch condition => cases condition <;> rfl
  | _ => rfl

theorem stackAt_withInlined (method : StackMethod) (inlined : Bool) :
    { method with inlined }.stackAt = method.stackAt := by
  funext position
  unfold stackAt
  rw [effect_withInlined]

end StackMethod

-- ==== lowered blocks

theorem LoweringContext.foldl_compareOperand (method : StackMethod)
    (r : Register) (stack : StackTypes) :
    (compareOperand r).foldl method.effect stack = r.stackType.boxed :: stack := by
  unfold compareOperand
  exact method.foldl_boxing r.stackType stack

namespace BlockShape

variable {unchecked : Bool} {final : StackTables} {operands : List Operand} {ops : List StackOp}

/-- A compare that is not deferred has its boxes in front of it. -/
theorem comparesObjects (h : BlockShape unchecked final operands ops)
    (method : StackMethod) (stack : StackTypes) :
    method.ComparesObjects stack ops := by
  cases h with
  | plain _ hops =>
    exact StackMethod.comparesObjects_of_not_mem (not_mem_of_isPlainCode hops rfl)
  | text _ _ hrest =>
    refine StackMethod.comparesObjects_of_not_mem ?_
    rw [List.mem_cons, not_or]
    exact ⟨nofun, not_mem_of_isPlainCode hrest rfl⟩
  | @field _ _ op hop _ =>
    refine StackMethod.comparesObjects_of_not_mem fun hmem => ?_
    rw [← List.mem_singleton.1 hmem] at hop
    cases hop
  | compareRegisters left right =>
    have hload : ∀ r, .callRoutine .compare ∉ LoweringContext.compareOperand r :=
      fun r => not_mem_of_isPlainCode (isPlainCode_compareOperand r) rfl
    rw [StackMethod.comparesObjects_append, StackMethod.comparesObjects_append, List.foldl_append,
      LoweringContext.foldl_compareOperand, LoweringContext.foldl_compareOperand]
    refine ⟨⟨StackMethod.comparesObjects_of_not_mem (hload left),
      StackMethod.comparesObjects_of_not_mem (hload right)⟩, fun _ => ?_, trivial⟩
    simp [StackType.isValueType_boxed]
  | _ => exact StackMethod.comparesObjects_of_not_mem (by simp)

/-- Nothing but compares is deferred. -/
theorem eq_compare_of_pending (h : BlockShape unchecked final operands ops)
    {routine : Routine} (hpending : .pending routine ∈ ops) :
    routine = .compare := by
  cases h with
  | plain _ hops => exact absurd hpending (not_mem_of_isPlainCode hops rfl)
  | text _ _ hrest =>
    rcases List.mem_cons.1 hpending with hhead | hmem
    · cases hhead
    · exact absurd hmem (not_mem_of_isPlainCode hrest rfl)
  | @field _ _ op hop _ =>
    rw [← List.mem_singleton.1 hpending] at hop
    cases hop
  | compareRegisters =>
    have hload : ∀ r, .pending routine ∉ LoweringContext.compareOperand r :=
      fun r => not_mem_of_isPlainCode (isPlainCode_compareOperand r) rfl
    simp [hload] at hpending
  | compareStack => simpa using hpending
  | _ => simp at hpending

end BlockShape

/-- What is still deferred in filled code was so before, and is no
compare. -/
theorem Filled.mem_of_pending {raw ops : List StackOp} (h : Filled raw ops)
    {routine : Routine} (hpending : .pending routine ∈ ops) :
    .pending routine ∈ raw ∧ routine ≠ .compare := by
  induction h with
  | nil => cases hpending
  | keep hop _ ih =>
    rcases List.mem_cons.1 hpending with rfl | hmem
    · exact ⟨.head _, fun hcompare => hop (hcompare ▸ rfl)⟩
    · exact ⟨.tail _ (ih hmem).1, (ih hmem).2⟩
  | @compare code _ _ hcode _ ih =>
    have hdone : .pending routine ∉ code := by
      obtain ⟨_, _, _, rfl⟩ := hcode
      unfold StackMethod.boxing
      split <;> split <;> simp
    have hmem := (List.mem_append.1 hpending).resolve_left hdone
    exact ⟨.tail _ (ih hmem).1, (ih hmem).2⟩

-- ==== blocks in a row

/-- Blocks in a row, each behind the marks of its place, up to the end of
the last one. -/
def laidFront (marks : Nat → List StackOp) (start : Nat) : List (List StackOp) → List StackOp
  | [] => []
  | block :: rest =>
    marks start ++ block ++ laidFront marks (start + 1) rest

section Laid

variable {marks : Nat → List StackOp} {start : Nat} {blocks : List (List StackOp)}

/-- The first blocks lie in front. -/
theorem isPrefix_laidFront_take (marks : Nat → List StackOp) (start : Nat)
    (blocks : List (List StackOp)) (count : Nat) :
    laidFront marks start (blocks.take count) <+: laid marks start blocks := by
  induction blocks generalizing start count with
  | nil =>
    rw [List.take_nil]
    exact List.nil_prefix
  | cons block rest ih =>
    cases count with
    | zero => exact List.nil_prefix
    | succ count =>
      rw [List.take_succ_cons, laidFront, laid, List.append_assoc, List.append_assoc]
      exact List.prefix_append_right_inj _ |>.2
        (List.prefix_append_right_inj _ |>.2 (ih (start + 1) count))

namespace StackMethod

variable {method : StackMethod} {stack : StackTypes}

theorem comparesObjects_laid (hmarks : ∀ place, .callRoutine .compare ∉ marks place)
    (hblocks : ∀ block ∈ blocks, ∀ stack, method.ComparesObjects stack block) :
    method.ComparesObjects stack (laid marks start blocks) := by
  induction blocks generalizing start stack with
  | nil => exact comparesObjects_of_not_mem (hmarks start)
  | cons block rest ih =>
    rw [List.forall_mem_cons] at hblocks
    rw [laid, comparesObjects_append, comparesObjects_append]
    exact ⟨⟨comparesObjects_of_not_mem (hmarks start), hblocks.1 _⟩, ih hblocks.2⟩

/-- Code made of blocks is boxed block by block, and behind each of them
the stack is the same. -/
theorem exists_blocks_of_boxed {ops : List StackOp}
    (hmarks : ∀ place, .pending .compare ∉ marks place)
    (h : Boxed method stack (laid marks start blocks) ops) :
    ∃ boxed, List.Forall₂ Filled blocks boxed
      ∧ ops = laid marks start boxed
      ∧ ∀ count, (laidFront marks start (boxed.take count)).foldl method.effect stack
          = (laidFront marks start (blocks.take count)).foldl
            method.effect stack := by
  induction blocks generalizing start stack ops with
  | nil =>
    refine ⟨[], .nil, h.filled.eq_of_not_mem (hmarks start), ?_⟩
    exact fun _ => rfl
  | cons block rest ih =>
    obtain ⟨_, _, rfl, hfront, hback⟩ := h.split
    obtain ⟨first, second, rfl, hfirst, hsecond⟩ := hfront.split
    obtain ⟨boxed, hboxed, rfl, hstacks⟩ := ih hback
    have hsame : first = marks start := hfirst.filled.eq_of_not_mem (hmarks start)
    subst hsame
    refine ⟨second :: boxed, .cons hsecond.filled hboxed, rfl, fun count => ?_⟩
    cases count with
    | zero => rfl
    | succ count =>
      rw [List.take_succ_cons, List.take_succ_cons, laidFront, laidFront,
        List.foldl_append, hfront.foldl_eq, hstacks count, ← List.foldl_append]

end StackMethod

end Laid

-- ==== methods

namespace Lowering

/-- The code of a method compares objects, and the stack behind every
instruction is that of the draft. -/
structure Boxes (lowering : Lowering) (owner : String) (method : Method)
    (final : StackMethod) : Prop where
  settled : ∀ routine, .pending routine ∉ final.ops
  boxed : ∀ position, final.ops[position]? = some (.callRoutine .compare) →
    ∀ type ∈ (final.stackAt position).take 2, type.isValueType = false
  /-- The draft is made of the blocks of the instructions and the code of
  what these become once the compares are replaced. Behind the first so
  many blocks both have the same stack. -/
  agrees : ∃ (tables later : StackTables) (draft : StackMethod) (raws blocks : List (List StackOp)),
    (lowering.draft owner method).run tables = .ok draft later
      ∧ List.Forall₂ (lowering.Lowers (Text.join owner method.name))
        method.body.instructions.zipIdx raws ∧ List.Forall₂ Filled raws blocks
      ∧ draft.ops = lowering.guardOps ++ laid (marks method.body.labelsByPlace) 0 raws
      ∧ final.ops = lowering.guardOps ++ laid (marks method.body.labelsByPlace) 0 blocks ∧ ∀ count,
        final.stackAt (lowering.guardOps ++ laidFront (marks method.body.labelsByPlace) 0
              (blocks.take count)).length
          = draft.stackAt (lowering.guardOps ++ laidFront (marks method.body.labelsByPlace) 0
              (raws.take count)).length

variable {lowering : Lowering} {owner : String} {method : Method}
  {tables later : StackTables} {final : StackMethod}

section Draft

variable {name : String} {labels : LabelsByPlace}
  {instructions : List Instruction} {raws : List (List StackOp)}
  (hraws : List.Forall₂ (lowering.Lowers name) instructions.zipIdx raws)
include hraws

/-- Nothing but compares is deferred in a draft. -/
theorem eq_compare_of_pending {routine : Routine}
    (h : .pending routine ∈ lowering.guardOps
      ++ laid (marks labels) 0 raws) : routine = .compare := by
  have hlaid := (List.mem_append.1 h).resolve_left (not_mem_guardOps nofun)
  rcases mem_laid hlaid with ⟨_, hmark⟩ | ⟨raw, hraw, hop⟩
  · simp [marks] at hmark
  · have hshapes : ∀ raw ∈ raws, .pending routine ∈ raw → routine = .compare :=
      forall_mem_of_forall₂ hraws fun _ _ _ hlowers hpending => by
        obtain ⟨_, hshape⟩ := hlowers.shape
        exact hshape.eq_compare_of_pending hpending
    exact hshapes raw hraw hop

/-- The compares of a draft that are not deferred find objects. -/
theorem comparesObjects_draft (method : StackMethod) :
    method.ComparesObjects [] (lowering.guardOps ++ laid (marks labels) 0 raws) := by
  have hshapes : ∀ raw ∈ raws, ∀ stack, method.ComparesObjects stack raw :=
    forall_mem_of_forall₂ hraws fun _ _ _ hlowers => by
      obtain ⟨_, hshape⟩ := hlowers.shape
      exact hshape.comparesObjects method
  rw [StackMethod.comparesObjects_append]
  exact ⟨StackMethod.comparesObjects_of_not_mem (not_mem_guardOps nofun),
    StackMethod.comparesObjects_laid (by simp [marks]) hshapes⟩

end Draft

theorem boxes_of_patchCompares {draft : StackMethod}
    (hdraft : (lowering.draft owner method).run tables = .ok draft later)
    (hrange : ∀ instruction ∈ method.body.instructions, ∀ slot,
      .var .locals slot ∈ instruction.operands → slot.toNat < method.body.locals.length)
    (hpatched : draft.patchCompares = .ok final) :
    lowering.Boxes owner method final := by
  obtain ⟨-, -, -, _, hops, hcode⟩ := exists_code_of_draft hdraft
  obtain ⟨raws, hraws, rfl⟩ := exists_blocks_of_codeFrom hcode
  have hdeclared := all_declares_of_draft hdraft hrange
  obtain ⟨hmore, hboxed⟩ := StackMethod.boxed_of_patchCompares hdeclared hpatched
  rw [hops] at hboxed
  refine ⟨fun _ hpending => ?_, fun _ hposition => ?_, ?_⟩
  · obtain ⟨hraw, hother⟩ := hboxed.filled.mem_of_pending hpending
    exact hother (eq_compare_of_pending hraws hraw)
  · exact (hboxed.comparesObjects (comparesObjects_draft hraws final)).stackAt hposition
  · -- the guard has no compare, so it is left as it is
    obtain ⟨first, _, hfinal, hfirst, hsecond⟩ := hboxed.split
    have hguard : first = lowering.guardOps := hfirst.filled.eq_of_not_mem (not_mem_guardOps nofun)
    subst hguard
    obtain ⟨blocks, hblocks, rfl, hstacks⟩ :=
      StackMethod.exists_blocks_of_boxed (by simp [marks]) hsecond
    refine ⟨tables, later, draft, raws, blocks, hdraft, hraws, hblocks, hops,
      hfinal, fun count => ?_⟩
    have hfront := (List.prefix_append_right_inj lowering.guardOps).2
      (isPrefix_laidFront_take (marks method.body.labelsByPlace) 0 blocks count)
    have hback := (List.prefix_append_right_inj lowering.guardOps).2
      (isPrefix_laidFront_take (marks method.body.labelsByPlace) 0 raws count)
    rw [← hfinal] at hfront
    rw [← hops] at hback
    have hsame := StackMethod.foldl_effect_of_declares hmore (fun op hop =>
      List.all_eq_true.1 hdeclared op (hback.subset hop)) []
    rw [StackMethod.stackAt_length hfront, StackMethod.stackAt_length hback,
      ← hsame, List.foldl_append, List.foldl_append]
    exact hstacks count

theorem boxes_of_method (h : (lowering.method owner method).run tables = .ok final later)
    (hrange : ∀ instruction ∈ method.body.instructions, ∀ slot,
      .var .locals slot ∈ instruction.operands → slot.toNat < method.body.locals.length) :
    lowering.Boxes owner method final := by
  obtain ⟨_, _, hdraft, h⟩ := run_bind_ok_iff.1 h
  split at h
  · cases h
  · rename_i patched hpatched
    obtain ⟨rfl, -⟩ := run_pure_ok_iff.1 h
    have hboxes := boxes_of_patchCompares hdraft hrange hpatched
    refine ⟨hboxes.settled, ?_, ?_⟩
    · rw [StackMethod.stackAt_withInlined]
      exact hboxes.boxed
    · rw [StackMethod.stackAt_withInlined]
      exact hboxes.agrees

end Lowering

-- ==== programs

/-- In the code of a program nothing is left deferred and no compare finds
a value that is not boxed, if the locals of its operands are declared.
What compares need for that changes the stack behind no instruction. -/
theorem Program.boxes_of_lower {program : Program}
    {options : LoweringOptions} {lowered : StackModule}
    (h : program.lower .standard options = .ok lowered) :
    List.Forall₂ (fun entry final =>
        (∀ instruction ∈ entry.2.body.instructions, ∀ slot,
          .var .locals slot ∈ instruction.operands → slot.toNat < entry.2.body.locals.length) →
        Lowering.Boxes ⟨.standard, ProgramFacts.ofProgram program, options⟩ entry.1 entry.2 final)
      (Lowering.withBodies program) lowered.methods := by
  obtain ⟨tables, hrun, -, -⟩ := exists_run_of_lower h
  refine (forall₂_of_run_mapM hrun).imp ?_
  intro entry final hmethod hrange
  obtain ⟨before, later, hmethod⟩ := hmethod
  exact Lowering.boxes_of_method hmethod hrange

/-- The compare of two numbers, neither of which is in a local. -/
theorem Sample.boxes_repetition :
    repetition.lower .standard {} = .ok ⟨#[], {}, [looped]⟩
      ∧ Lowering.Boxes ⟨.standard, ProgramFacts.ofProgram repetition, {}⟩
        "App.Main" looping looped := by
  have hbodies : Lowering.withBodies repetition = [("App.Main", looping)] := by
    decide
  have hboxes := Program.boxes_of_lower lower_repetition
  rw [hbodies] at hboxes
  cases hboxes with
  | cons hboxes =>
    exact ⟨lower_repetition, hboxes (by simp [looping])⟩

end StackAsm
