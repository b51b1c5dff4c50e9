/-
Deferred compares, all of them at once. They are replaced one after the
other, each in code that the others have changed, and each may add a
local. But where the locals of the code are declared the outcome is that
of one substitution, read off the code as it was: the code of a compare
is fixed by the two topmost types at its place, and its scratch local
lies behind the declared ones and behind those of the compares that
follow it (`substituted`).

# Shape of the argument

- `substitutedFrom start` is the part of the outcome that lies behind a
  position. One step puts the operation in front of it
  (`settle_substitutedFrom`), so the steps lead to `substituted`, unless
  a slot is out of reach (`substituteCompares_eq_substituted`).
- The slots, the last compare first, are the numbers behind those of the
  declared locals (`reverse_map_scratchSlot`), so no two are the same.
- What is lowered from operands in range declares its locals
  (`all_declares_of_draft`).
-/
import Mathlib.Data.List.Nodup
import StackAsm.Machine.Standard
import StackAsm.Proofs.StackCode.Blocks

namespace StackAsm

namespace StackMethod

variable {position : Nat}

variable (method : StackMethod)

-- ==== the substitution

/-- Whether a deferred compare stands at the position and the lower of
its values has to be boxed. -/
def needsScratch (position : Nat) : Bool :=
  method.ops[position]? = some (.pending .compare) && (method.stackAt position).second.isValueType

/-- The positions of such compares from a position on. -/
def scratchFrom (start : Nat) : List Nat :=
  (List.range' start (method.ops.length - start)).filter method.needsScratch

/-- The slot for the upper value of the compare at a position: one for
each such compare that follows lies between it and the declared locals. -/
def scratchSlot (position : Nat) : Nat :=
  method.locals.size + (method.scratchFrom (position + 1)).length

def scratchLocal (position : Nat) : TypedName :=
  ⟨"$scratch" ++ toString (method.scratchSlot position), (method.stackAt position).top⟩

/-- The code of the compare at a position. -/
def compareCode (position : Nat) : List StackOp :=
  let stack := method.stackAt position
  let slot := UInt16.ofNat (method.scratchSlot position)
  (if stack.second.isValueType then
      [.var .store .locals slot, .box stack.second, .var .load .locals slot]
    else [])
    ++ boxing stack.top ++ [.callRoutine .compare]

/-- What an operation becomes at its position. -/
def codeAt (entry : StackOp × Nat) : List StackOp :=
  if entry.1 = .pending .compare then method.compareCode entry.2
  else [entry.1]

/-- The method with every deferred compare replaced by its code, and a
local for each one that needs it, the last one first. -/
def substituted : StackMethod :=
  { method with
    ops := method.ops.zipIdx.flatMap method.codeAt
    locals := method.locals ++ ((method.scratchFrom 0).reverse.map method.scratchLocal).toArray }

/-- The part of the substitution behind a position. -/
def substitutedFrom (start : Nat) : StackMethod :=
  { method with
    ops := (method.ops.zipIdx.drop start).flatMap method.codeAt
    locals := method.locals
      ++ ((method.scratchFrom start).reverse.map method.scratchLocal).toArray }

-- ==== positions

variable {method} {start : Nat}

theorem scratchFrom_of_le (h : method.ops.length ≤ start) : method.scratchFrom start = [] := by
  unfold scratchFrom
  rw [Nat.sub_eq_zero_of_le h]
  rfl

theorem scratchFrom_of_lt (h : start < method.ops.length) :
    method.scratchFrom start = if method.needsScratch start then
          start :: method.scratchFrom (start + 1)
        else method.scratchFrom (start + 1) := by
  have hcount : method.ops.length - start = method.ops.length - (start + 1) + 1 := by
    omega
  unfold scratchFrom
  rw [hcount, List.range'_succ, List.filter_cons]

/-- A compare that needs a local is among the positions. -/
theorem mem_scratchFrom_zero :
    position ∈ method.scratchFrom 0 ↔ method.needsScratch position = true := by
  unfold scratchFrom
  rw [List.mem_filter, List.mem_range'_1]
  constructor
  · exact And.right
  · intro h
    refine ⟨⟨Nat.zero_le _, ?_⟩, h⟩
    have hop : method.ops[position]? = some (.pending .compare) :=
      of_decide_eq_true (Bool.and_eq_true_iff.1 h).1
    have hinside := (List.getElem?_eq_some_iff.1 hop).1
    omega

variable (method)

/-- The slots, the last compare first, are the next ones. -/
theorem reverse_map_scratchSlot (start : Nat) :
    ((method.scratchFrom start).map method.scratchSlot).reverse
      = List.range' method.locals.size (method.scratchFrom start).length := by
  by_cases hstart : start < method.ops.length
  · have ih := reverse_map_scratchSlot (start + 1)
    rw [scratchFrom_of_lt hstart]
    split
    · rw [List.map_cons, List.reverse_cons, ih, List.length_cons, List.range'_1_concat]
      rfl
    · exact ih
  · rw [scratchFrom_of_le (Nat.le_of_not_lt hstart)]
    rfl
termination_by method.ops.length - start

theorem nodup_scratchSlot : ((method.scratchFrom 0).map method.scratchSlot).Nodup := by
  rw [← List.nodup_reverse, reverse_map_scratchSlot]
  exact List.nodup_range' 1

/-- The local of a compare has as many in front of it as compares
follow. -/
theorem getElem?_scratchLocals (start : Nat) (h : position ∈ method.scratchFrom start) :
    ((method.scratchFrom start).reverse.map
        method.scratchLocal)[(method.scratchFrom (position + 1)).length]?
      = some (method.scratchLocal position) := by
  by_cases hstart : start < method.ops.length
  · rw [scratchFrom_of_lt hstart] at h ⊢
    split at h
    · rename_i hneeds
      rw [if_pos hneeds, List.reverse_cons, List.map_append]
      rcases List.mem_cons.1 h with rfl | h
      · rw [List.getElem?_append_right (by simp)]
        simp
      · have ih := getElem?_scratchLocals (start + 1) h
        rw [List.getElem?_append_left (List.getElem?_eq_some_iff.1 ih).1]
        exact ih
    · rename_i hneeds
      rw [if_neg hneeds]
      exact getElem?_scratchLocals (start + 1) h
  · rw [scratchFrom_of_le (Nat.le_of_not_lt hstart)] at h
    cases h
termination_by method.ops.length - start

theorem getElem?_substituted_locals (h : position ∈ method.scratchFrom 0) :
    method.substituted.locals[method.scratchSlot position]?
      = some (method.scratchLocal position) := by
  unfold substituted scratchSlot
  rw [Array.getElem?_append_right (Nat.le_add_right _ _),
    Nat.add_sub_cancel_left, List.getElem?_toArray]
  exact method.getElem?_scratchLocals 0 h

-- ==== steps

theorem size_substitutedFrom (position : Nat) :
    (method.substitutedFrom (position + 1)).locals.size = method.scratchSlot position := by
  simp [substitutedFrom, scratchSlot]

variable {method}

/-- The compare at a position, put in front of what lies behind it. -/
theorem compareBlock_substitutedFrom (h : method.ops[position]? = some (.pending .compare)) :
    (method.substitutedFrom (position + 1)).compareBlock (method.stackAt position)
      = if method.needsScratch position
          ∧ ¬ method.scratchSlot position < UInt16.size
        then .error (.tooManyLocals method.name)
        else .ok (method.compareCode position,
          { method.substitutedFrom position with
            ops := (method.substitutedFrom (position + 1)).ops }) := by
  have hinside := (List.getElem?_eq_some_iff.1 h).1
  have hsize := method.size_substitutedFrom position
  by_cases hvalue : (method.stackAt position).second.isValueType = true
  · have hneeds : method.needsScratch position = true := by
      simp [needsScratch, h, hvalue]
    have hfrom : method.scratchFrom position = position :: method.scratchFrom (position + 1) := by
      rw [scratchFrom_of_lt hinside, if_pos hneeds]
    by_cases hroom : method.scratchSlot position < UInt16.size
    · simp only [compareBlock, boxLower, addScratch, hsize, hvalue, hroom,
        bind, Except.bind, pure, Except.pure, if_true, not_true, and_false, if_false]
      simp [compareCode, hvalue, substitutedFrom, hfrom, scratchLocal]
    · simp only [compareBlock, boxLower, addScratch, hsize, hvalue, hroom,
        hneeds, bind, Except.bind, if_true, if_false, not_false_eq_true, and_self]
      rfl
  · have hneeds : ¬ method.needsScratch position = true := by
      simp [needsScratch, hvalue]
    have hfrom : method.scratchFrom position = method.scratchFrom (position + 1) := by
      rw [scratchFrom_of_lt hinside, if_neg hneeds]
    simp [compareBlock, boxLower, hvalue, hneeds, bind, Except.bind, pure,
      Except.pure, compareCode, substitutedFrom, hfrom]

/-- One step: the operation at a position, put in front of what lies
behind it. -/
theorem settle_substitutedFrom {op : StackOp} (h : method.ops[position]? = some op) :
    (method.substitutedFrom (position + 1)).settle (op, method.stackAt position)
      = if method.needsScratch position
          ∧ ¬ method.scratchSlot position < UInt16.size
        then .error (.tooManyLocals method.name)
        else .ok (method.substitutedFrom position) := by
  obtain ⟨hinside, hop⟩ := List.getElem?_eq_some_iff.1 h
  have hdrop : method.ops.zipIdx.drop position
      = (op, position) :: method.ops.zipIdx.drop (position + 1) := by
    rw [List.drop_eq_getElem_cons (by simpa using hinside)]
    simp [hop]
  unfold settle
  by_cases hpending : op = .pending .compare
  · subst hpending
    rw [if_pos rfl, compareBlock_substitutedFrom h]
    split
    · rfl
    · simp [bind, Except.bind, pure, Except.pure, substitutedFrom, hdrop, codeAt]
  · have hneeds : ¬ method.needsScratch position = true := by
      simp [needsScratch, h, hpending]
    have hfrom : method.scratchFrom position = method.scratchFrom (position + 1) := by
      rw [scratchFrom_of_lt hinside, if_neg hneeds]
    rw [if_neg hpending, if_neg fun hboth => hneeds hboth.1]
    simp [substitutedFrom, hdrop, hfrom, codeAt, hpending]

variable (method)

/-- All steps from a position down, of which each may lack a slot. -/
theorem foldlM_settle_substitutedFrom (count : Nat) (h : count ≤ method.ops.length) :
    (method.staged (method.ops.take count)).foldlM settle (method.substitutedFrom count)
      = if ∀ position < count, method.needsScratch position →
          method.scratchSlot position < UInt16.size
        then .ok method.substituted
        else .error (.tooManyLocals method.name) := by
  induction count with
  | zero =>
    rw [if_pos nofun]
    rfl
  | succ position ih =>
    have hop : method.ops[position]? = some method.ops[position] := List.getElem?_eq_getElem h
    rw [List.take_succ_eq_append_getElem h, staged_append_singleton, List.foldlM_cons]
    change (method.substitutedFrom (position + 1)).settle
      (method.ops[position], method.stackAt position) >>= _ = _
    rw [settle_substitutedFrom hop]
    -- the first slot out of reach, from the end, stops all steps before it
    by_cases hfull : method.needsScratch position ∧ ¬ method.scratchSlot position < UInt16.size
    · rw [if_pos hfull, if_neg fun hall =>
        hfull.2 (hall position (Nat.lt_succ_self _) hfull.1)]
      rfl
    · rw [if_neg hfull]
      refine (ih (Nat.le_of_succ_le h)).trans (if_congr ?_ rfl rfl)
      constructor
      · intro hall other hother hneeds
        rcases Nat.lt_succ_iff_lt_or_eq.1 hother with hlt | rfl
        · exact hall other hlt hneeds
        · exact Decidable.not_not.1 fun hnot => hfull ⟨hneeds, hnot⟩
      · intro hall other hother
        exact hall other (Nat.lt_succ_of_lt hother)

theorem substituteCompares_eq_substituted :
    method.substituteCompares
      = if ∀ position ∈ method.scratchFrom 0, method.scratchSlot position < UInt16.size
        then .ok method.substituted
        else .error (.tooManyLocals method.name) := by
  have hall := method.foldlM_settle_substitutedFrom method.ops.length (Nat.le_refl _)
  have hstart : method.substitutedFrom method.ops.length = { method with ops := [] } := by
    unfold substitutedFrom
    rw [scratchFrom_of_le (Nat.le_refl _), List.drop_of_length_le (by simp)]
    simp
  rw [List.take_length, hstart] at hall
  refine hall.trans (if_congr ?_ rfl rfl)
  constructor
  · intro hfits position hposition
    have hneeds := mem_scratchFrom_zero.1 hposition
    have hop : method.ops[position]? = some (.pending .compare) :=
      of_decide_eq_true (Bool.and_eq_true_iff.1 hneeds).1
    exact hfits position (List.getElem?_eq_some_iff.1 hop).1 hneeds
  · intro hfits position _ hneeds
    exact hfits position (mem_scratchFrom_zero.2 hneeds)

end StackMethod

-- ==== what is lowered

namespace Lowering

variable {lowering : Lowering} {owner : String} {method : Method}
  {tables later : StackTables} {draft : StackMethod}

/-- Code lowered from operands in range declares its locals. -/
theorem all_declares_of_draft (h : (lowering.draft owner method).run tables = .ok draft later)
    (hrange : ∀ instruction ∈ method.body.instructions, ∀ slot,
      .var .locals slot ∈ instruction.operands → slot.toNat < method.body.locals.length) :
    draft.ops.all draft.declares = true := by
  obtain ⟨-, -, hlocals, _, hops, hcode⟩ := exists_code_of_draft h
  have hsize : draft.locals.size = method.body.locals.length := by
    simp [hlocals]
  rw [List.all_eq_true]
  intro op hop
  rw [hops] at hop
  cases op with
  | var access kind slot =>
    cases kind with
    | argument => rfl
    | locals =>
      have hguard : .var access .locals slot ∉ lowering.guardOps := not_mem_guardOps nofun
      obtain ⟨instruction, hin, hslot⟩ := exists_operand_of_mem_code hcode
          ((List.mem_append.1 hop).resolve_left hguard)
      have hinside := hrange instruction hin slot hslot
      exact decide_eq_true (hsize ▸ hinside)
  | _ => rfl

/-- Deferred compares are replaced one at a time, the last one first, and
yet all at once: each by the code for the types that the code as it was
drafted has on the stack there, all else kept in order. This fails only
if the slot of a scratch local is out of reach. No two scratch locals are
the same, none is a declared one, and each has the type of the value it
is for. -/
theorem patchCompares_draft (h : (lowering.draft owner method).run tables = .ok draft later)
    (hrange : ∀ instruction ∈ method.body.instructions, ∀ slot,
      .var .locals slot ∈ instruction.operands → slot.toNat < method.body.locals.length) :
    draft.patchCompares = draft.patchEach
      ∧ draft.patchEach
        = (if ∀ position ∈ draft.scratchFrom 0, draft.scratchSlot position < UInt16.size
          then .ok draft.substituted
          else .error (.tooManyLocals draft.name))
      ∧ ((draft.scratchFrom 0).map draft.scratchSlot).Nodup
      ∧ ∀ position ∈ draft.scratchFrom 0, draft.locals.size ≤ draft.scratchSlot position
        ∧ draft.substituted.locals[draft.scratchSlot position]?
          = some ⟨"$scratch" ++ toString (draft.scratchSlot position),
              (draft.stackAt position).top⟩ := by
  refine ⟨draft.patchCompares_eq, ?_, draft.nodup_scratchSlot, fun position hposition => ?_⟩
  · rw [← draft.substituteCompares_eq (all_declares_of_draft h hrange)]
    exact draft.substituteCompares_eq_substituted
  · exact ⟨Nat.le_add_right _ _, draft.getElem?_substituted_locals hposition⟩

end Lowering

-- ==== a sample

namespace Sample

/-- A lowering for a program without types. -/
def untyped : Lowering := ⟨.standard, { structs := .ofList [] }, {}⟩

/-- A method with two compares in a row. -/
def comparingTwice : Method where
  name := "twice"
  attrs := ⟨Attributes.staticBit⟩
  body :=
    { locals := [⟨"x", ⟨.resolved ⟨.primitive, "i32"⟩, 0⟩⟩]
      instructions := [⟨.single 0x02, [.const (.i64 1)], 0⟩, ⟨.single 0x02, [.const .null], 0⟩,
        ⟨.single 0x02, [.const (.bool true)], 0⟩,
        ⟨.single 0x2B, [.var .locals 0], 0⟩, ⟨.single 0x70, [], 0⟩, ⟨.single 0x70, [], 0⟩] }

/-- The draft of it, in which both compares are deferred. -/
def deferringTwice : StackMethod where
  name := "App.Main.twice"
  isStatic := true
  result := .void
  locals := #[⟨"x", .i32⟩]
  ops := [.callRoutine .ensureStack, .const (.i8 1), .const .null,
    .const (.bool true), .var .load .locals 0, .pending .compare, .pending .compare]

theorem run_codeFrom_comparingTwice :
    (untyped.codeFrom "App.Main.twice" comparingTwice.body.labelsByPlace 0
      comparingTwice.body.instructions).run {}
      = .ok deferringTwice.ops.tail {} := by
  simp only [comparingTwice, Lowering.codeFrom, Lowering.marks_labelsByPlace_eq_filter]
  rfl

end Sample

/-- The later compare comes first in the slots. Its upper value is an
object and is not boxed. -/
theorem Sample.patchCompares_deferringTwice :
    (untyped.draft "App.Main" comparingTwice).run {}
        = .ok deferringTwice {}
      ∧ deferringTwice.patchCompares = .ok
        { deferringTwice with
          locals := #[⟨"x", .i32⟩, ⟨"$scratch1", .obj⟩, ⟨"$scratch2", .i32⟩]
          ops := [.callRoutine .ensureStack, .const (.i8 1), .const .null,
            .const (.bool true), .var .load .locals 0,
            .var .store .locals 2, .box .bool, .var .load .locals 2,
            .box .i32, .callRoutine .compare,
            .var .store .locals 1, .box .i64, .var .load .locals 1,
            .callRoutine .compare] } := by
  have hdraft : (untyped.draft "App.Main" comparingTwice).run {} = .ok deferringTwice {} :=
    run_bind_of_ok run_codeFrom_comparingTwice
  have hrange : ∀ instruction ∈ comparingTwice.body.instructions, ∀ slot,
      .var .locals slot ∈ instruction.operands →
        slot.toNat < comparingTwice.body.locals.length := by
    simp [comparingTwice]
  obtain ⟨hone, hall, -, -⟩ := Lowering.patchCompares_draft hdraft hrange
  refine ⟨hdraft, ?_⟩
  rw [hone, hall, if_pos (by decide)]
  rfl

end StackAsm
