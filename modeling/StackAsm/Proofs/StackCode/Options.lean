/-
What the options change. Each of them has one effect on the code: the
guard stands in front of every method or of none, array indices are
checked or not, and short methods are marked for inlining. Lowering under
any options is lowering without a guard, followed by these changes
(`Program.lower_eq_map_under`). So under other options the same program
fails with the same fault, or has the same tables, heads and locals.

# Shape of the argument

- No rule but that of array elements looks at the options, and the one
  thing it does with them is to set a check (`lower_withOptions`). So code
  under the options is code without them, with the checks set
  (`codeFrom_under`).
- Deferred compares are replaced for the types on the stack, which neither
  the checks nor the guard change (`effect_withCheck`, `foldl_guard`). So
  replacing them commutes with setting the checks and with putting the
  guard in front (`patchFront_under`).
-/
import StackAsm.Proofs.StackCode.Compare
import StackAsm.Proofs.StackCode.Shapes

namespace StackAsm

open Lower

-- ==== changes

/-- The operation with its array index checked or not, if it has one. -/
def StackOp.withCheck (checked : Bool) : StackOp → StackOp
  | .element access _ => .element access checked
  | op => op

namespace LoweringOptions

/-- Options under which nothing stands in front of the code. -/
def bare : LoweringOptions := { unguarded := true }

/-- What stands in front of the code of a method. -/
def guardOps (options : LoweringOptions) : List StackOp :=
  if options.unguarded then [] else [.callRoutine .ensureStack]

/-- Code without a guard, as the options would have it. -/
def adorn (options : LoweringOptions) (code : List StackOp) :
    List StackOp := options.guardOps ++ code.map (·.withCheck !options.unchecked)

end LoweringOptions

/-- The method as the options would have it. -/
def StackMethod.under (options : LoweringOptions) (method : StackMethod) : StackMethod :=
  { method with
    ops := options.adorn method.ops
    inlined := options.inlining && (options.adorn method.ops).length ≤ inlineLimit }

-- ==== checks

namespace StackOp

variable {checked : Bool} {op : StackOp}

theorem withCheck_of_isPlain (h : op.isPlain = true) : op.withCheck checked = op := by
  cases op with
  | element => cases h
  | _ => rfl

theorem withCheck_eq_compare :
    op.withCheck checked = .pending .compare ↔ op = .pending .compare := by
  cases op with
  | element =>
    constructor
    · intro h
      cases h
    · intro h
      cases h
  | _ => exact Iff.rfl

end StackOp

theorem map_withCheck_of_isPlainCode {checked : Bool} {ops : List StackOp}
    (h : IsPlainCode ops) : ops.map (·.withCheck checked) = ops := by
  refine (List.map_congr_left fun op hop => ?_).trans (List.map_id _)
  exact StackOp.withCheck_of_isPlain (h op hop)

/-- In the block of an instruction the checks are set. -/
theorem BlockShape.map_withCheck {unchecked : Bool} {final : StackTables}
    {operands : List Operand} {ops : List StackOp} (h : BlockShape unchecked final operands ops) :
    ops.map (·.withCheck !unchecked) = ops := by
  cases h with
  | plain _ hops => exact map_withCheck_of_isPlainCode hops
  | text _ _ hrest =>
    rw [List.map_cons, map_withCheck_of_isPlainCode hrest]
    rfl
  | @field symbol id op hop _ =>
    cases op with
    | element => cases hop
    | _ => rfl
  | compareRegisters left right =>
    rw [List.map_append, List.map_append,
      map_withCheck_of_isPlainCode (isPlainCode_compareOperand left),
      map_withCheck_of_isPlainCode (isPlainCode_compareOperand right)]
    rfl
  | _ => rfl

-- ==== blocks

namespace Lower

variable {α β : Type}

theorem run_map (step : Lower α) (f : α → β) (tables : StackTables) :
    (f <$> step).run tables = match step.run tables with
      | .ok value later => .ok (f value) later
      | .error fault later => .error fault later := by
  rw [map_eq_pure_bind]
  cases hrun : step.run tables with
  | ok =>
    rw [run_bind_of_ok hrun]
    rfl
  | error => rw [run_bind_of_error hrun]

/-- A change that every answer already has. -/
theorem map_eq_self {step : Lower α} {change : α → α}
    (h : ∀ {tables value later}, step.run tables = .ok value later →
      change value = value) : change <$> step = step := by
  funext tables
  refine (run_map step change tables).trans ?_
  cases hrun : step.run tables with
  | ok =>
    simp only [h hrun]
    exact hrun.symm
  | error => exact hrun.symm

/-- A step for each of several items, with a change behind each. -/
theorem mapM_map (step : α → Lower β) (change : β → β) (items : List α) :
    (items.mapM fun item => change <$> step item) = List.map change <$> items.mapM step := by
  induction items with
  | nil => rfl
  | cons item rest ih =>
    rw [List.mapM_cons, List.mapM_cons, ih]
    simp only [map_bind, bind_map_left, map_pure, List.map_cons]

end Lower

namespace LoweringContext

/-- The same instruction under other options. -/
def withOptions (ctx : LoweringContext) (options : LoweringOptions) :
    LoweringContext := { ctx with options }

variable (ctx : LoweringContext) (options : LoweringOptions)

theorem map_withCheck_lower (rule : LoweringRule) (operands : List Operand) :
    List.map (·.withCheck !ctx.options.unchecked)
      <$> ctx.lower rule operands = ctx.lower rule operands :=
  map_eq_self fun {_ _ later} hrun =>
    ((ctx.makes_lower rule operands).ok hrun (.refl later)).2.map_withCheck

theorem element_withOptions (r : Register) :
    (ctx.withOptions options).element r
      = List.map (·.withCheck !options.unchecked) <$> ctx.element r := by
  unfold element
  simp only [withOptions]
  split <;> rfl

/-- An instruction under other options: the checks are set. -/
theorem lower_withOptions (rule : LoweringRule) (operands : List Operand) :
    (ctx.withOptions options).lower rule operands
      = List.map (·.withCheck !options.unchecked)
        <$> ctx.lower rule operands := by
  by_cases hrule : rule = .element
  · subst hrule
    dsimp only [lower]
    split
    · exact ctx.element_withOptions options _
    · rfl
  · -- no other rule looks at the options
    have hsame : (ctx.withOptions options).lower rule operands = ctx.lower rule operands := by
      cases rule with
      | element => exact absurd rfl hrule
      | _ => rfl
    rw [← hsame]
    exact ((ctx.withOptions options).map_withCheck_lower rule operands).symm

end LoweringContext

-- ==== replacing compares

namespace StackMethod

theorem effect_withCheck (method : StackMethod) (stack : StackTypes)
    (checked : Bool) (op : StackOp) :
    method.effect stack (op.withCheck checked) = method.effect stack op := by
  cases op with
  | element access => cases access <;> rfl
  | _ => rfl

theorem foldl_map_withCheck (method : StackMethod) (checked : Bool)
    (ops : List StackOp) (stack : StackTypes) :
    (ops.map (·.withCheck checked)).foldl method.effect stack = ops.foldl method.effect stack := by
  rw [List.foldl_map]
  simp only [effect_withCheck]

/-- The guard leaves the stack as it is. -/
theorem foldl_guard (method : StackMethod) (options : LoweringOptions) (stack : StackTypes) :
    options.guardOps.foldl method.effect stack = stack := by
  unfold LoweringOptions.guardOps
  split <;> rfl

theorem map_withCheck_compareBlock {method made : StackMethod}
    {stack : StackTypes} {block : List StackOp}
    (h : method.compareBlock stack = .ok (block, made)) (checked : Bool) :
    block.map (·.withCheck checked) = block := by
  unfold compareBlock at h
  obtain ⟨⟨lower, _⟩, hlower, h⟩ := bind_ok_iff.1 h
  cases pure_ok_iff.1 h
  have hsame : lower.map (·.withCheck checked) = lower := by
    unfold boxLower at hlower
    split at hlower
    · obtain ⟨⟨_, _⟩, -, hlower⟩ := bind_ok_iff.1 hlower
      cases pure_ok_iff.1 hlower
      rfl
    · cases pure_ok_iff.1 hlower
      rfl
  rw [List.map_append, List.map_append, hsame, map_withCheck_of_isPlainCode (isPlainCode_boxing _)]
  rfl

/-- One step: the code of a compare is the same in front of code whose
checks are set. -/
theorem settle_withCheck (method : StackMethod) (stack : StackTypes) (checked : Bool) :
    (method.withOps (method.ops.map (·.withCheck checked))).settle (.pending .compare, stack)
      = (method.settle (.pending .compare, stack)).map fun made =>
        made.withOps (made.ops.map (·.withCheck checked)) := by
  unfold settle
  rw [if_pos rfl, if_pos rfl, compareBlock_withOps]
  cases hblock : method.compareBlock stack with
  | error => rfl
  | ok made =>
    obtain ⟨block, grown⟩ := made
    have hops : grown.ops = method.ops := (extends_of_compareBlock hblock).2
    have hsame := map_withCheck_compareBlock hblock checked
    show Except.ok (withOps _ (block ++ _)) = Except.ok (withOps _ _)
    simp only [withOps, hops, List.map_append, hsame]

/-- Code without compares is done. -/
theorem patchFront_of_not_mem {rev : List StackOp}
    (h : .pending .compare ∉ rev) (method : StackMethod) :
    patchFront rev method = .ok (method.withOps (rev.reverse ++ method.ops)) := by
  induction rev generalizing method with
  | nil => rfl
  | cons op rest ih =>
    rw [List.mem_cons, not_or] at h
    rw [patchFront_of_ne (Ne.symm h.1), ih h.2, List.reverse_cons, List.append_assoc]
    rfl

/-- All steps: replacing compares and then adorning the code is adorning
it and then replacing them. -/
theorem patchFront_under (options : LoweringOptions) (rev : List StackOp) (method : StackMethod) :
    patchFront
        (rev.map (·.withCheck !options.unchecked)
          ++ options.guardOps.reverse)
        (method.withOps (method.ops.map (·.withCheck !options.unchecked)))
      = (patchFront rev method).map fun final =>
        final.withOps (options.adorn final.ops) := by
  induction rev generalizing method with
  | nil =>
    have hguard : .pending .compare ∉ options.guardOps.reverse := by
      unfold LoweringOptions.guardOps
      split <;> simp
    rw [List.map_nil, List.nil_append, patchFront_of_not_mem hguard, List.reverse_reverse]
    rfl
  | cons op rest ih =>
    rw [List.map_cons, List.cons_append]
    by_cases hpending : op = .pending .compare
    · subst hpending
      have hstack : (rest.map (·.withCheck !options.unchecked)
            ++ options.guardOps.reverse).reverse.foldl
            (method.withOps (method.ops.map (·.withCheck !options.unchecked))).effect []
          = rest.reverse.foldl method.effect [] := by
        rw [effect_withOps, List.reverse_append, List.reverse_reverse,
          List.foldl_append, foldl_guard, ← List.map_reverse, foldl_map_withCheck]
      show patchFront (.pending .compare :: _) _ = _
      rw [patchFront_compare, patchFront_compare, hstack, settle_withCheck]
      cases method.settle (.pending .compare, rest.reverse.foldl method.effect []) with
      | error => rfl
      | ok made => exact ih made
    · have hother : op.withCheck (!options.unchecked) ≠ .pending .compare :=
        fun h => hpending (StackOp.withCheck_eq_compare.1 h)
      rw [patchFront_of_ne hother, patchFront_of_ne hpending]
      exact ih (method.withOps (op :: method.ops))

theorem patchCompares_under (options : LoweringOptions) (method : StackMethod) :
    (method.withOps (options.adorn method.ops)).patchCompares
      = method.patchCompares.map fun final =>
        final.withOps (options.adorn final.ops) := by
  have hfront := patchFront_under options method.ops.reverse (method.withOps [])
  have hcode : (method.withOps (options.adorn method.ops)).ops.reverse
      = method.ops.reverse.map (·.withCheck !options.unchecked)
        ++ options.guardOps.reverse := by
    show (options.adorn method.ops).reverse = _
    unfold LoweringOptions.adorn
    rw [List.reverse_append, List.map_reverse]
  rw [patchCompares_eq_patchFront, patchCompares_eq_patchFront, hcode]
  exact hfront

end StackMethod

-- ==== methods

namespace Lowering

variable (set : InstructionSet) (facts : ProgramFacts) (options : LoweringOptions)

theorem guardOps_eq (lowering : Lowering) : lowering.guardOps = lowering.options.guardOps := rfl

theorem block_under (method : String) (index : Nat) (instruction : Instruction) :
    (Lowering.mk set facts options).block method index instruction
      = List.map (·.withCheck !options.unchecked)
        <$> (Lowering.mk set facts .bare).block method index instruction := by
  unfold block
  simp only
  split
  · rfl
  · rename_i form _
    exact LoweringContext.lower_withOptions ⟨facts, .bare, method, index, form.mnemonic⟩ options _ _

theorem map_withCheck_marks (labels : LabelsByPlace) (place : Nat) (checked : Bool) :
    (marks labels place).map (·.withCheck checked) = marks labels place := by
  unfold marks
  rw [List.map_map]
  rfl

theorem codeFrom_under (method : String) (labels : LabelsByPlace)
    (index : Nat) (instructions : List Instruction) :
    (Lowering.mk set facts options).codeFrom method labels index instructions
      = List.map (·.withCheck !options.unchecked)
        <$> (Lowering.mk set facts .bare).codeFrom method labels index
          instructions := by
  induction instructions generalizing index with
  | nil =>
    unfold codeFrom
    rw [map_pure, map_withCheck_marks]
  | cons instruction rest ih =>
    unfold codeFrom
    rw [block_under, ih]
    simp only [map_bind, bind_map_left, map_pure, List.map_append, map_withCheck_marks]

theorem draft_under (owner : String) (method : Method) :
    (Lowering.mk set facts options).draft owner method = (fun draft : StackMethod =>
          draft.withOps (options.adorn draft.ops))
        <$> (Lowering.mk set facts .bare).draft owner method := by
  unfold draft
  simp only
  split
  · rfl
  · rw [codeFrom_under, guardOps_eq]
    simp only [map_bind, bind_map_left, map_pure]
    rfl

/-- A method under the options. -/
theorem method_under (owner : String) (method : Method) :
    (Lowering.mk set facts options).method owner method
      = StackMethod.under options
        <$> (Lowering.mk set facts .bare).method owner method := by
  unfold Lowering.method
  rw [draft_under]
  simp only [map_bind, bind_map_left]
  congr 1
  funext draft
  rw [StackMethod.patchCompares_under]
  cases draft.patchCompares with
  | error => rfl
  | ok => rfl

end Lowering

-- ==== programs

/-- The module as the options would have it. -/
def StackModule.under (options : LoweringOptions) (module : StackModule) :
    StackModule := { module with methods := module.methods.map (·.under options) }

/-- Lowering under the options is lowering without them and then making
the changes they ask for. -/
theorem Program.lower_eq_map_under (program : Program)
    (set : InstructionSet) (options : LoweringOptions) :
    program.lower set options = (program.lower set .bare).map (·.under options) := by
  unfold lower
  simp only [Lowering.method_under set _ options, mapM_map, run_map]
  cases EStateM.run (List.mapM (fun entry : String × Method =>
      (Lowering.mk set (ProgramFacts.ofProgram program) .bare).method
        entry.1 entry.2) (Lowering.withBodies program)) {} with
  | ok => rfl
  | error => rfl

/-- Two methods that are one but for the options they were lowered under. -/
structure StackMethod.DiffersBy (options options' : LoweringOptions)
    (method method' : StackMethod) : Prop where
  name : method'.name = method.name
  isStatic : method'.isStatic = method.isStatic
  result : method'.result = method.result
  params : method'.params = method.params
  locals : method'.locals = method.locals
  /-- The code is the same but for the guard and the checks. -/
  ops : ∃ code, method.ops = options.adorn code ∧ method'.ops = options'.adorn code
  inlined : method.inlined = (options.inlining && method.ops.length ≤ inlineLimit)
  inlined' : method'.inlined = (options'.inlining && method'.ops.length ≤ inlineLimit)

theorem StackMethod.differsBy_under (options options' : LoweringOptions) (method : StackMethod) :
    DiffersBy options options' (method.under options) (method.under options') where
  name := rfl
  isStatic := rfl
  result := rfl
  params := rfl
  locals := rfl
  ops := ⟨method.ops, rfl, rfl⟩
  inlined := rfl
  inlined' := rfl

/-- Under any two options a program fails with the same fault, or has the
same tables and the same methods, but for the guard, the checks and the
marks for inlining that each asks for. -/
theorem Program.lower_differsBy (program : Program) (set : InstructionSet)
    (options options' : LoweringOptions) :
    (∃ fault, program.lower set options = .error fault
      ∧ program.lower set options' = .error fault)
    ∨ ∃ lowered lowered', program.lower set options = .ok lowered
      ∧ program.lower set options' = .ok lowered'
      ∧ lowered'.symbols = lowered.symbols
      ∧ lowered'.strings = lowered.strings
      ∧ List.Forall₂ (StackMethod.DiffersBy options options')
        lowered.methods lowered'.methods := by
  rw [lower_eq_map_under program set options, lower_eq_map_under program set options']
  cases program.lower set .bare with
  | error fault => exact .inl ⟨fault, rfl, rfl⟩
  | ok bare =>
    refine .inr ⟨_, _, rfl, rfl, rfl, rfl, ?_⟩
    show List.Forall₂ _ (bare.methods.map _) (bare.methods.map _)
    rw [List.forall₂_map_left_iff, List.forall₂_map_right_iff, List.forall₂_same]
    exact fun method _ => method.differsBy_under options options'

end StackAsm
