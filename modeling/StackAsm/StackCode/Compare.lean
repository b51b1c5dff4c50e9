/-
Deferred compares. Comparing the two topmost values needs them boxed,
but which boxes are needed shows only when the code in front is there. A
placeholder keeps the place; it is replaced once the method is complete,
the last one first, so that the positions still to be done stay put.

Code whose locals are all declared never reads the locals that the
replacements add, so there one pass over it does the same
(`substituteCompares_eq`).
-/
import StackAsm.StackCode.Fault
import StackAsm.StackCode.Inference

namespace StackAsm.StackMethod

/-- The slot of a new local for a value of that type. -/
def addScratch (method : StackMethod) (type : StackType) :
    Except LoweringFault (UInt16 × StackMethod) :=
  let slot := method.locals.size
  if slot < UInt16.size then
    .ok (UInt16.ofNat slot,
      { method with locals := method.locals.push ⟨"$scratch" ++ toString slot, type⟩ })
  else .error (.tooManyLocals method.name)

/-- Box a value on the top of the stack if it is a value type. -/
def boxing (type : StackType) : List StackOp := if type.isValueType then [.box type] else []

/-- Box the second value from the top, of type `lower`, with a scratch
local for the value above it. -/
def boxLower (method : StackMethod) (lower upper : StackType) :
    Except LoweringFault (List StackOp × StackMethod) :=
  if lower.isValueType then do
    let (slot, method) ← method.addScratch upper
    return ([.var .store .locals slot, .box lower, .var .load .locals slot], method)
  else .ok ([], method)

/-- The code of a compare of the two topmost values of a stack. -/
def compareBlock (method : StackMethod) (stack : StackTypes) :
    Except LoweringFault (List StackOp × StackMethod) := do
  let (lower, method) ← method.boxLower stack.second stack.top
  return (lower ++ boxing stack.top ++ [.callRoutine .compare], method)

-- ==== one at a time

/-- Replace the deferred compare at a position. -/
def patchCompare (method : StackMethod) (position : Nat) : Except LoweringFault StackMethod :=
  if method.ops[position]? = some (.pending .compare) then do
    let (block, method) ← method.compareBlock (method.stackAt position)
    return { method with ops := method.ops.take position ++ block ++ method.ops.drop (position + 1) }
  else .error (.patchTarget method.name position)

/-- Positions of deferred compares, counted from `start`. -/
def pendingFrom (start : Nat) : List StackOp → List Nat
  | [] => []
  | .pending .compare :: rest => start :: pendingFrom (start + 1) rest
  | _ :: rest => pendingFrom (start + 1) rest

/-- Replace every deferred compare, the last one first. -/
def patchEach (method : StackMethod) : Except LoweringFault StackMethod :=
  (pendingFrom 0 method.ops).reverse.foldlM patchCompare method

-- ==== in one pass

/-- Operations, the last first, each with the stack before it. -/
def staged (method : StackMethod) (ops : List StackOp) : List (StackOp × StackTypes) :=
  (ops.foldl (fun state op => (method.effect state.1 op, (op, state.1) :: state.2)) ([], [])).2

/-- Put an operation in front of the code, a deferred compare replaced. -/
def settle (method : StackMethod) (entry : StackOp × StackTypes) :
    Except LoweringFault StackMethod :=
  if entry.1 = .pending .compare then do
    let (block, method) ← method.compareBlock entry.2
    return { method with ops := block ++ method.ops }
  else .ok { method with ops := entry.1 :: method.ops }

/-- Replace every deferred compare by what it would be replaced by if it
were the only one. -/
def substituteCompares (method : StackMethod) : Except LoweringFault StackMethod :=
  (method.staged method.ops).foldlM settle { method with ops := [] }

/-- Whether an operation has no undeclared local. -/
def declares (method : StackMethod) : StackOp → Bool
  | .var _ .locals slot => slot.toNat < method.locals.size
  | _ => true

/-- Replace every deferred compare. -/
def patchCompares (method : StackMethod) : Except LoweringFault StackMethod :=
  if method.ops.all method.declares then method.substituteCompares else method.patchEach

-- ==== both agree

theorem pendingFrom_append (start : Nat) (front back : List StackOp) :
    pendingFrom start (front ++ back) =
      pendingFrom start front ++ pendingFrom (start + front.length) back := by
  induction front generalizing start with
  | nil => rfl
  | cons op rest ih =>
    have count : start + (rest.length + 1) = start + 1 + rest.length := by omega
    rw [List.cons_append, List.length_cons, count]
    by_cases pending : op = .pending .compare
    · subst pending
      simp [pendingFrom, ih]
    · simp [pendingFrom, ih]

theorem foldl_staging (method : StackMethod) (ops : List StackOp)
    (state : StackTypes × List (StackOp × StackTypes)) :
    (ops.foldl (fun state op => (method.effect state.1 op, (op, state.1) :: state.2)) state).1 =
      ops.foldl method.effect state.1 := by
  induction ops generalizing state with
  | nil => rfl
  | cons op rest ih => exact ih _

theorem staged_append_singleton (method : StackMethod) (ops : List StackOp) (op : StackOp) :
    method.staged (ops ++ [op]) = (op, ops.foldl method.effect []) :: method.staged ops := by
  simp [staged, foldl_staging]

/-- A method that has the locals of another, perhaps with more behind
them. -/
structure Extends (later method : StackMethod) : Prop where
  params : later.params = method.params
  size : method.locals.size ≤ later.locals.size
  locals : ∀ slot, slot < method.locals.size → later.locals[slot]? = method.locals[slot]?

theorem Extends.refl (method : StackMethod) : method.Extends method :=
  ⟨rfl, Nat.le_refl _, fun _ _ => rfl⟩

theorem Extends.trans {last later method : StackMethod} (first : later.Extends method)
    (second : last.Extends later) : last.Extends method where
  params := second.params.trans first.params
  size := Nat.le_trans first.size second.size
  locals slot inside :=
    (second.locals slot (Nat.lt_of_lt_of_le inside first.size)).trans (first.locals slot inside)

/-- Locals beyond the declared ones do not change what an operation
does. -/
theorem effect_of_declares {method later : StackMethod} (more : later.Extends method)
    {op : StackOp} (declared : method.declares op) (stack : StackTypes) :
    later.effect stack op = method.effect stack op := by
  cases op with
  | var access kind slot =>
    have same : later.variableType kind slot = method.variableType kind slot := by
      cases kind with
      | argument => simp [variableType, more.params]
      | locals => simp [variableType, more.locals slot.toNat (of_decide_eq_true declared)]
    cases access <;> simp [effect, same]
  | element access checked => cases access <;> rfl
  | branch condition label => cases condition <;> rfl
  | _ => rfl

theorem foldl_effect_of_declares {method later : StackMethod} (more : later.Extends method)
    {ops : List StackOp} (declared : ∀ op ∈ ops, method.declares op) (stack : StackTypes) :
    ops.foldl later.effect stack = ops.foldl method.effect stack := by
  induction ops generalizing stack with
  | nil => rfl
  | cons op rest ih =>
    rw [List.foldl_cons, List.foldl_cons,
      effect_of_declares more (declared op List.mem_cons_self)]
    exact ih (fun other inside => declared other (List.mem_cons_of_mem _ inside)) _

/-- The method with other code. -/
def withOps (method : StackMethod) (ops : List StackOp) : StackMethod := { method with ops }

theorem effect_withOps (method : StackMethod) (ops : List StackOp) :
    (method.withOps ops).effect = method.effect := by
  funext stack op
  cases op with
  | var access kind slot => cases access <;> rfl
  | element access checked => cases access <;> rfl
  | branch condition label => cases condition <;> rfl
  | _ => rfl

/-- The code of a compare does not hang on the code around it. -/
theorem compareBlock_withOps (method : StackMethod) (ops : List StackOp) (stack : StackTypes) :
    (method.withOps ops).compareBlock stack =
      (method.compareBlock stack).map fun made => (made.1, made.2.withOps ops) := by
  by_cases value : stack.second.isValueType = true
  · by_cases room : method.locals.size < UInt16.size <;>
      simp [compareBlock, boxLower, addScratch, withOps, value, room, bind, Except.bind, pure,
        Except.pure, Except.map]
  · simp [compareBlock, boxLower, withOps, value, bind, Except.bind, pure, Except.pure, Except.map]

/-- The code of a compare adds a local at most, behind the others. -/
theorem extends_of_compareBlock {method made : StackMethod} {stack : StackTypes}
    {block : List StackOp} (done : method.compareBlock stack = .ok (block, made)) :
    made.Extends method ∧ made.ops = method.ops := by
  by_cases value : stack.second.isValueType = true
  · by_cases room : method.locals.size < UInt16.size
    · simp only [compareBlock, boxLower, addScratch, value, room, bind, Except.bind, pure,
        Except.pure, if_true, Except.ok.injEq, Prod.mk.injEq] at done
      obtain ⟨-, rfl⟩ := done
      refine ⟨⟨rfl, by simp, fun slot inside => ?_⟩, rfl⟩
      rw [Array.getElem?_push, if_neg (Nat.ne_of_lt inside)]
    · simp [compareBlock, boxLower, addScratch, value, room, bind, Except.bind] at done
  · simp only [compareBlock, boxLower, value, bind, Except.bind, pure, Except.pure, if_false,
      Except.ok.injEq, Prod.mk.injEq, Bool.false_eq_true] at done
    exact done.2 ▸ ⟨.refl method, rfl⟩

theorem extends_of_settle {method made : StackMethod} {entry : StackOp × StackTypes}
    (done : method.settle entry = .ok made) : made.Extends method := by
  unfold settle at done
  split at done
  · cases block : method.compareBlock entry.2 with
    | error fault => simp [block, bind, Except.bind] at done
    | ok next =>
      simp only [block, bind, Except.bind, pure, Except.pure, Except.ok.injEq] at done
      have more := (extends_of_compareBlock block).1
      exact done ▸ ⟨more.params, more.size, more.locals⟩
  · cases done
    exact ⟨rfl, Nat.le_refl _, fun _ _ => rfl⟩

/-- Replacing the compare between two pieces of code is putting its code
in front of the second. -/
theorem patchCompare_between (method : StackMethod) (front : List StackOp) :
    (method.withOps (front ++ .pending .compare :: method.ops)).patchCompare front.length =
      (method.settle (.pending .compare, front.foldl method.effect [])).map fun made =>
        made.withOps (front ++ made.ops) := by
  have found : (method.withOps (front ++ .pending .compare :: method.ops)).ops[front.length]? =
      some (.pending .compare) := by
    simp [withOps]
  have stack : (method.withOps (front ++ .pending .compare :: method.ops)).stackAt front.length =
      front.foldl method.effect [] := by
    rw [stackAt, effect_withOps]
    simp [withOps]
  rw [patchCompare, if_pos found, stack, compareBlock_withOps, settle, if_pos rfl]
  cases block : method.compareBlock (front.foldl method.effect []) with
  | error fault => rfl
  | ok made =>
    have same := (extends_of_compareBlock block).2
    simp [withOps, bind, Except.bind, pure, Except.pure, Except.map, same, List.drop_append]

theorem foldlM_patchCompare (method later : StackMethod) (more : later.Extends method)
    (rev : List StackOp) (declared : ∀ op ∈ rev, method.declares op) :
    (pendingFrom 0 rev.reverse).reverse.foldlM patchCompare
        (later.withOps (rev.reverse ++ later.ops)) =
      (method.staged rev.reverse).foldlM settle later := by
  induction rev generalizing later with
  | nil => rfl
  | cons op rest ih =>
    have inner : ∀ op ∈ rest, method.declares op := fun other inside =>
      declared other (List.mem_cons_of_mem _ inside)
    have stack := foldl_effect_of_declares more
      (fun op inside => inner op (List.mem_reverse.1 inside)) []
    rw [List.reverse_cons, pendingFrom_append, staged_append_singleton, List.reverse_append,
      List.foldlM_append, List.foldlM_cons, List.append_assoc, List.singleton_append, ← stack]
    by_cases pending : op = .pending .compare
    · subst pending
      have here : (pendingFrom (0 + rest.reverse.length) [.pending .compare]).reverse =
          [rest.reverse.length] := by
        simp [pendingFrom]
      rw [here, List.foldlM_cons, patchCompare_between]
      cases made : later.settle (.pending .compare, rest.reverse.foldl later.effect []) with
      | error fault => rfl
      | ok next => exact ih next (more.trans (extends_of_settle made)) inner
    · have none : (pendingFrom (0 + rest.reverse.length) [op]).reverse = [] := by
        simp [pendingFrom]
      rw [none, settle, if_neg pending]
      exact ih (later.withOps (op :: later.ops)) ⟨more.params, more.size, more.locals⟩ inner

/-- One pass does what replacing the compares one at a time does, where
every local is declared. -/
theorem substituteCompares_eq (method : StackMethod) (declared : method.ops.all method.declares) :
    method.substituteCompares = method.patchEach := by
  have all := foldlM_patchCompare method (method.withOps []) ⟨rfl, Nat.le_refl _, fun _ _ => rfl⟩
    method.ops.reverse fun op inside =>
      List.all_eq_true.1 declared op (List.mem_reverse.1 inside)
  rw [List.reverse_reverse] at all
  rw [substituteCompares, patchEach]
  refine all.symm.trans ?_
  simp [withOps]

theorem patchCompares_eq (method : StackMethod) : method.patchCompares = method.patchEach := by
  unfold patchCompares
  split
  · exact substituteCompares_eq method ‹_›
  · rfl

end StackAsm.StackMethod
