/-
When deferred compares can be replaced. Each of them adds a scratch local
at most, and nothing but locals can run out: a placeholder is found
wherever one was noted, because the positions behind it are done first.
So replacing fails for the number of locals only, and then the locals and
the compares together are more than there are slots.
-/
import StackAsm.StackCode.Compare
import StackAsm.Proofs.Steps

namespace StackAsm.StackMethod

-- ==== one compare

/-- The code of a compare takes a new local at most. -/
theorem compareBlock_ends (method : StackMethod) (stack : StackTypes) :
    (∃ block made, method.compareBlock stack = .ok (block, made)
        ∧ made.name = method.name
        ∧ made.locals.size ≤ method.locals.size + 1)
      ∨ (method.compareBlock stack = .error (.tooManyLocals method.name)
        ∧ UInt16.size ≤ method.locals.size) := by
  by_cases hvalue : stack.second.isValueType = true
  · by_cases hroom : method.locals.size < UInt16.size
    · left
      simp only [compareBlock, boxLower, addScratch, hvalue, hroom, bind,
        Except.bind, pure, Except.pure, if_true, Except.ok.injEq, Prod.mk.injEq]
      exact ⟨_, _, ⟨rfl, rfl⟩, rfl, by simp⟩
    · right
      refine ⟨?_, Nat.le_of_not_lt hroom⟩
      simp [compareBlock, boxLower, addScratch, hvalue, hroom, bind, Except.bind]
  · left
    simp only [compareBlock, boxLower, hvalue, bind, Except.bind, pure,
      Except.pure, if_false, Bool.false_eq_true, Except.ok.injEq, Prod.mk.injEq]
    exact ⟨_, _, ⟨rfl, rfl⟩, rfl, Nat.le_succ _⟩

theorem settle_ends (method : StackMethod) (stack : StackTypes) :
    (∃ made, method.settle (.pending .compare, stack) = .ok made
        ∧ made.name = method.name
        ∧ made.locals.size ≤ method.locals.size + 1)
      ∨ (method.settle (.pending .compare, stack)
          = .error (.tooManyLocals method.name)
        ∧ UInt16.size ≤ method.locals.size) := by
  rcases method.compareBlock_ends stack with
    ⟨block, made, hblock, hname, hsize⟩ | ⟨hblock, hfull⟩
  · left
    refine ⟨made.withOps (block ++ made.ops), ?_, hname, hsize⟩
    simp [settle, hblock, withOps, bind, Except.bind, pure, Except.pure]
  · right
    refine ⟨?_, hfull⟩
    simp [settle, hblock, bind, Except.bind]

/-- What boxes the two topmost values of the stack, with a slot for the
upper one. -/
def compareBoxes (stack : StackTypes) (slot : UInt16) : List StackOp :=
  (if stack.second.isValueType then
      [.var .store .locals slot, .box stack.second, .var .load .locals slot]
    else [])
    ++ boxing stack.top

/-- A scratch local has the type asked for. -/
theorem addScratch_ok {method made : StackMethod} {type : StackType}
    {slot : UInt16} (h : method.addScratch type = .ok (slot, made)) :
    made.ops = method.ops ∧ slot.toNat < made.locals.size
      ∧ made.variableType .locals slot = type := by
  unfold addScratch at h
  by_cases hroom : method.locals.size < UInt16.size
  · rw [if_pos hroom] at h
    cases h
    have hslot : (UInt16.ofNat method.locals.size).toNat = method.locals.size :=
      UInt16.toNat_ofNat_of_lt' hroom
    refine ⟨rfl, ?_, ?_⟩
    · rw [hslot, Array.size_push]
      exact Nat.lt_succ_self _
    · simp only [variableType, hslot, Array.getElem?_push_size]
  · rw [if_neg hroom] at h
    cases h

/-- A compare becomes boxes and a call. The slot, where one is needed, is
that of a local for the upper value. -/
theorem exists_slot_of_settle {method made : StackMethod} {stack : StackTypes}
    (h : method.settle (.pending .compare, stack) = .ok made) :
    ∃ slot, made.ops
        = compareBoxes stack slot ++ [.callRoutine .compare] ++ method.ops
      ∧ (stack.second.isValueType = true → slot.toNat < made.locals.size
          ∧ made.variableType .locals slot = stack.top) := by
  unfold settle compareBlock boxLower at h
  obtain ⟨⟨_, _⟩, hblock, h⟩ := bind_ok_iff.1 h
  obtain rfl := pure_ok_iff.1 h
  by_cases hvalue : stack.second.isValueType = true
  · rw [if_pos hvalue] at hblock
    obtain ⟨⟨_, _⟩, hlower, hblock⟩ := bind_ok_iff.1 hblock
    obtain ⟨⟨slot, _⟩, hscratch, hlower⟩ := bind_ok_iff.1 hlower
    cases pure_ok_iff.1 hlower
    cases pure_ok_iff.1 hblock
    obtain ⟨hops, hinside, htype⟩ := addScratch_ok hscratch
    refine ⟨slot, ?_, fun _ => ⟨hinside, htype⟩⟩
    rw [compareBoxes, if_pos hvalue, ← hops]
  · rw [if_neg hvalue] at hblock
    cases pure_ok_iff.1 hblock
    refine ⟨0, ?_, fun hsome => absurd hsome hvalue⟩
    rw [compareBoxes, if_neg hvalue]

-- ==== in steps

/-- Replace the compares of `rev`, which lies the wrong way round in front
of the code that is done. -/
def patchFront (rev : List StackOp) (method : StackMethod) :
    Except LoweringFault StackMethod :=
  (pendingFrom 0 rev.reverse).reverse.foldlM patchCompare
    (method.withOps (rev.reverse ++ method.ops))

/-- A compare is the last one in front and done first. -/
theorem patchFront_compare (rest : List StackOp) (method : StackMethod) :
    patchFront (.pending .compare :: rest) method
      = method.settle (.pending .compare,
          rest.reverse.foldl method.effect []) >>= patchFront rest := by
  have hhere : (pendingFrom (0 + rest.reverse.length)
      [.pending .compare]).reverse = [rest.reverse.length] := by
    simp [pendingFrom]
  unfold patchFront
  rw [List.reverse_cons, pendingFrom_append, List.reverse_append,
    List.foldlM_append, List.append_assoc, List.singleton_append, hhere,
    List.foldlM_cons, patchCompare_between]
  cases method.settle (.pending .compare, rest.reverse.foldl method.effect []) with
  | error => rfl
  | ok => rfl

/-- Any other operation is done. -/
theorem patchFront_of_ne {op : StackOp} (hop : op ≠ .pending .compare)
    (rest : List StackOp) (method : StackMethod) :
    patchFront (op :: rest) method = patchFront rest (method.withOps (op :: method.ops)) := by
  have hnone : (pendingFrom (0 + rest.reverse.length) [op]).reverse = [] := by
    simp [pendingFrom]
  unfold patchFront
  rw [List.reverse_cons, pendingFrom_append, List.reverse_append,
    List.foldlM_append, List.append_assoc, List.singleton_append, hnone]
  rfl

theorem patchCompares_eq_patchFront (method : StackMethod) :
    method.patchCompares = patchFront method.ops.reverse (method.withOps []) := by
  have hsame : (method.withOps []).withOps (method.ops ++ (method.withOps []).ops) = method := by
    simp [withOps]
  rw [patchCompares_eq, patchEach, patchFront, List.reverse_reverse, hsame]

-- ==== all compares

/-- Replacing compares, a step at a time, fails for want of locals
only. -/
theorem patchFront_ends (rev : List StackOp) (method : StackMethod) :
    (∃ final, patchFront rev method = .ok final)
      ∨ (patchFront rev method = .error (.tooManyLocals method.name)
        ∧ UInt16.size
          < method.locals.size + rev.count (.pending .compare)) := by
  induction rev generalizing method with
  | nil => exact .inl ⟨_, rfl⟩
  | cons op rest ih =>
    by_cases hpending : op = .pending .compare
    · subst hpending
      rw [patchFront_compare, List.count_cons_self]
      -- The local that this compare may take is missing for those in
      -- front of it.
      rcases method.settle_ends (rest.reverse.foldl method.effect [])
        with ⟨made, hmade, hname, hsize⟩ | ⟨hmade, hfull⟩
      · rw [hmade]
        rcases ih made with ⟨final, hfinal⟩ | ⟨hfault, _⟩
        · exact .inl ⟨final, hfinal⟩
        · rw [hname] at hfault
          exact .inr ⟨hfault, by omega⟩
      · rw [hmade]
        exact .inr ⟨rfl, by omega⟩
    · rw [patchFront_of_ne hpending, List.count_cons_of_ne hpending]
      exact ih (method.withOps (op :: method.ops))

/-- Deferred compares can be replaced unless locals run out. -/
theorem patchCompares_ends (method : StackMethod) :
    (∃ final, method.patchCompares = .ok final)
      ∨ (method.patchCompares = .error (.tooManyLocals method.name)
        ∧ UInt16.size
          < method.locals.size + method.ops.count (.pending .compare)) := by
  have hends := patchFront_ends method.ops.reverse (method.withOps [])
  rw [List.count_reverse] at hends
  rw [patchCompares_eq_patchFront]
  exact hends

end StackAsm.StackMethod
