/-
Single instructions. A lowering rule knows some mnemonics only, and
operands of some shapes (`LoweringRule.Covers`). Where it does, it never
fails (`gives_lower`), and no rule but one leaves a compare to be done
later. Whether the rule of a form covers whatever the form takes can be
read off the form (`Form.lowers`), so for the standard set it is checked
form by form.
-/
import StackAsm.Machine.Standard
import StackAsm.StackCode.Lower
import StackAsm.Proofs.Parse.Arguments

namespace StackAsm

-- ==== steps that succeed

namespace Lower

variable {α β : Type}

/-- The step never fails, and every answer has the property. -/
def Gives (step : Lower α) (P : α → Prop) : Prop :=
  ∀ tables, ∃ value later, step.run tables = .ok value later ∧ P value

variable {step : Lower α} {next : α → Lower β} {P : α → Prop} {Q : β → Prop}

theorem gives_pure {value : α} (h : P value) : Gives (pure value) P :=
  fun tables => ⟨value, tables, rfl, h⟩

theorem gives_modifyGet (change : StackTables → α × StackTables)
    (h : ∀ tables, P (change tables).1) : Gives (modifyGet change) P :=
  fun tables => ⟨_, _, rfl, h tables⟩

theorem Gives.bind (hstep : step.Gives P) (hnext : ∀ value, P value → (next value).Gives Q) :
    Gives (step >>= next) Q := by
  intro tables
  obtain ⟨value, middle, hvalue, hP⟩ := hstep tables
  obtain ⟨result, later, hresult, hQ⟩ := hnext value hP middle
  refine ⟨result, later, ?_, hQ⟩
  rw [run_bind_of_ok hvalue]
  exact hresult

theorem Gives.imp (hstep : step.Gives P) {P' : α → Prop}
    (himp : ∀ value, P value → P' value) : step.Gives P' := by
  intro tables
  obtain ⟨value, later, hrun, hP⟩ := hstep tables
  exact ⟨value, later, hrun, himp value hP⟩

theorem Gives.map (hstep : step.Gives P) {f : α → β} (himp : ∀ value, P value → Q (f value)) :
    Gives (step >>= fun value => pure (f value)) Q :=
  hstep.bind fun value hP => gives_pure (himp value hP)

end Lower

open Lower

-- ==== mnemonics

/-- The mnemonics of variables of that kind. -/
@[simp] def VariableKind.mnemonics : VariableKind → List String
  | .argument => ["ldrg", "ldrga", "strg"]
  | .locals => ["ldlc", "ldlca", "stlc"]

/-- The mnemonics that a rule tells apart by name. -/
@[simp] def LoweringRule.mnemonics : LoweringRule → List String
  | .registerUpdate => ["inc", "dec", "clr"]
  | .field => ["ldfd", "ldfda", "stfd", "ldsfd", "ldsfda", "stsfd"]
  | .element => ["ldel", "ldela", "stel"]
  | .flag => ["setf", "clrf", "ldfl"]
  | .typeOperand =>
    ["ldtype", "newobj", "newarr", "box", "unbox", "isinst", "cast", "conv"]
  | .branch => ["jmp", "jt", "jf"]
  | _ => []

namespace LoweringContext

variable {reference : Reference}

variable (ctx : LoweringContext)

/-- Code without a deferred compare. -/
def Settled (ops : List StackOp) : Prop := .pending .compare ∉ ops

-- ==== parts

theorem gives_symbol (h : reference.isPending = false) :
    (ctx.symbol reference).Gives fun _ => True := by
  cases reference with
  | pending => cases h
  | resolved =>
    exact (gives_modifyGet (P := fun _ => True) _ fun _ => trivial).map fun _ _ => trivial

theorem gives_text (content : String) :
    (text content).Gives fun _ => True := gives_modifyGet _ fun _ => trivial

theorem gives_constant (value : Constant) : (constant value).Gives fun _ => True := by
  cases value with
  | str value => exact (gives_text value).map fun _ _ => trivial
  | _ => exact gives_pure trivial

theorem gives_registerConstant (r : Register) (value : Constant) :
    (registerConstant r value).Gives fun _ => True := by
  unfold registerConstant
  split
  case h_6 => exact gives_constant _
  all_goals exact gives_pure trivial

-- ==== families

theorem gives_plain (h : (plainOp? ctx.mnemonic).isSome = true) : ctx.plain.Gives Settled := by
  obtain ⟨op, hop⟩ := Option.isSome_iff_exists.1 h
  have hsettled : op ≠ .pending .compare := by
    unfold plainOp? at hop
    split at hop
    all_goals cases hop
    all_goals nofun
  unfold plain
  rw [hop]
  refine gives_pure ?_
  simpa [Settled] using hsettled.symm

theorem gives_registerUpdate (r : Register)
    (h : ctx.mnemonic ∈ LoweringRule.registerUpdate.mnemonics) :
    (ctx.registerUpdate r).Gives Settled := by
  unfold registerUpdate
  split
  case h_4 => simp_all
  all_goals exact gives_pure (by simp [Settled])

theorem gives_field (hresolved : reference.isPending = false)
    (h : ctx.mnemonic ∈ LoweringRule.field.mnemonics) :
    (ctx.field reference).Gives Settled := by
  refine (ctx.gives_symbol hresolved).bind fun ⟨_, _⟩ _ => ?_
  simp only
  split
  case h_7 => simp_all
  all_goals exact gives_pure (by simp [Settled])

theorem gives_variableAccess {kind : VariableKind} (slot : UInt16)
    (h : ctx.mnemonic ∈ kind.mnemonics) :
    (ctx.variableAccess kind slot).Gives Settled := by
  unfold variableAccess
  cases kind
  all_goals
    split
    case h_7 => simp_all
    all_goals exact gives_pure (by simp [Settled])

theorem gives_element (r : Register) (h : ctx.mnemonic ∈ LoweringRule.element.mnemonics) :
    (ctx.element r).Gives Settled := by
  unfold element
  split
  case h_4 => simp_all
  all_goals exact gives_pure (by simp [Settled])

theorem gives_flag (f : Flag) (h : ctx.mnemonic ∈ LoweringRule.flag.mnemonics) :
    (ctx.flag f).Gives Settled := by
  unfold flag
  split
  case h_4 => simp_all
  all_goals exact gives_pure (by simp [Settled])

theorem gives_typeOperand {spec : TypeSpec} (hresolved : spec.reference.isPending = false)
    (h : ctx.mnemonic ∈ LoweringRule.typeOperand.mnemonics) :
    (ctx.typeOperand spec).Gives Settled := by
  refine (ctx.gives_symbol hresolved).bind fun _ _ => ?_
  split
  case h_9 => simp_all
  all_goals exact gives_pure (by simp [Settled])

theorem gives_branch (label : UInt16) (h : ctx.mnemonic ∈ LoweringRule.branch.mnemonics) :
    (ctx.branch label).Gives Settled := by
  unfold branch
  split
  case h_4 => simp_all
  all_goals exact gives_pure (by simp [Settled])

theorem gives_call (hresolved : reference.isPending = false) :
    (ctx.call reference).Gives Settled := (ctx.gives_symbol hresolved).bind fun ⟨_, _⟩ _ =>
    gives_pure (by simp [Settled])

theorem settled_compareRegisters (left right : Register) :
    Settled (compareOperand left ++ compareOperand right ++ [.callRoutine .compare]) := by
  have hload : ∀ r, Settled (compareOperand r) := by
    intro r
    unfold compareOperand StackMethod.boxing
    split <;> simp [Settled]
  simp_all [Settled]

end LoweringContext

-- ==== rules

/-- The mnemonics and the operands that a rule has code for. -/
inductive LoweringRule.Covers : LoweringRule → String → List Operand → Prop where
  | plain {mnemonic : String} {operands : List Operand}
      (h : (LoweringContext.plainOp? mnemonic).isSome = true) : Covers .plain mnemonic operands
  | loadConstant (mnemonic : String) (r : Register) (value : Constant) :
      Covers .loadConstant mnemonic [.register r, .const value]
  | pushRegister (mnemonic : String) (r : Register) : Covers .push mnemonic [.register r]
  | pushConstant (mnemonic : String) (value : Constant) : Covers .push mnemonic [.const value]
  | popRegister (mnemonic : String) (r : Register) : Covers .popRegister mnemonic [.register r]
  | registerUpdate {mnemonic : String} (r : Register)
      (h : mnemonic ∈ LoweringRule.registerUpdate.mnemonics) :
      Covers .registerUpdate mnemonic [.register r]
  | field {mnemonic : String} {reference : Reference} (hresolved : reference.isPending = false)
      (h : mnemonic ∈ LoweringRule.field.mnemonics) : Covers .field mnemonic [.field reference]
  | access {mnemonic : String} {kind : VariableKind} (slot : UInt16)
      (h : mnemonic ∈ kind.mnemonics) : Covers .variable mnemonic [.var kind slot]
  | element {mnemonic : String} (r : Register) (h : mnemonic ∈ LoweringRule.element.mnemonics) :
      Covers .element mnemonic [.register r]
  | flag {mnemonic : String} (f : Flag) (h : mnemonic ∈ LoweringRule.flag.mnemonics) :
      Covers .flag mnemonic [.flag f]
  | typeOperand {mnemonic : String} {spec : TypeSpec} (hresolved : spec.reference.isPending = false)
      (h : mnemonic ∈ LoweringRule.typeOperand.mnemonics) :
      Covers .typeOperand mnemonic [.type spec]
  | nullType : Covers .typeOperand "ldtype" [.nullType]
  | branch {mnemonic : String} (label : UInt16) (target : Option UInt32)
      (h : mnemonic ∈ LoweringRule.branch.mnemonics) : Covers .branch mnemonic [.label label target]
  | flagBranch (mnemonic : String) (f : Flag) (label : UInt16) (target : Option UInt32) :
      Covers .flagBranch mnemonic [.flag f, .label label target]
  | call (mnemonic : String) {reference : Reference} (hresolved : reference.isPending = false) :
      Covers .call mnemonic [.method reference]
  | callExternal (mnemonic name : String) : Covers .callExternal mnemonic [.function name]
  | format (mnemonic text : String) : Covers .format mnemonic [.const (.str text)]
  | compareRegisters (mnemonic : String) (left right : Register) :
      Covers .compareRegisters mnemonic [.register left, .register right]
  | compareStack (mnemonic : String) : Covers .compareStack mnemonic []

namespace LoweringContext

variable (ctx : LoweringContext) {rule : LoweringRule} {operands : List Operand}

theorem gives_nullType (h : ctx.mnemonic = "ldtype") :
    (ctx.lower .typeOperand [.nullType]).Gives Settled := by
  show (if ctx.mnemonic = "ldtype" then pure [.token none]
    else ctx.badOperands : Lower (List StackOp)).Gives Settled
  rw [if_pos h]
  exact gives_pure (by simp [Settled])

/-- A rule never fails on what it covers, and only the compare of stack
values is deferred. -/
theorem gives_lower {mnemonic : String} (hctx : ctx.mnemonic = mnemonic)
    (h : rule.Covers mnemonic operands) :
    (ctx.lower rule operands).Gives fun ops =>
      ops.count (.pending .compare) = (rule == .compareStack).toNat := by
  have hsettled : ∀ {step : Lower (List StackOp)}, step.Gives Settled →
      step.Gives fun ops => ops.count (.pending .compare) = 0 :=
    fun hstep => hstep.imp fun ops hops => List.count_eq_zero.2 hops
  cases h with
  | compareStack => exact gives_pure rfl
  | plain h => exact hsettled (ctx.gives_plain (hctx ▸ h))
  | loadConstant _ r value =>
    exact hsettled ((gives_registerConstant r value).map fun _ _ => by simp [Settled])
  | pushRegister => exact hsettled (gives_pure (by simp [Settled]))
  | pushConstant _ value =>
    exact hsettled ((gives_constant value).map fun _ _ => by simp [Settled])
  | popRegister => exact hsettled (gives_pure (by simp [Settled]))
  | registerUpdate r h =>
    exact hsettled (ctx.gives_registerUpdate r (hctx ▸ h))
  | field hresolved h =>
    exact hsettled (ctx.gives_field hresolved (hctx ▸ h))
  | access slot h => exact hsettled (ctx.gives_variableAccess slot (hctx ▸ h))
  | element r h => exact hsettled (ctx.gives_element r (hctx ▸ h))
  | flag f h => exact hsettled (ctx.gives_flag f (hctx ▸ h))
  | typeOperand hresolved h =>
    exact hsettled (ctx.gives_typeOperand hresolved (hctx ▸ h))
  | nullType => exact hsettled (ctx.gives_nullType hctx)
  | branch label target h =>
    exact hsettled (ctx.gives_branch label (hctx ▸ h))
  | flagBranch =>
    exact hsettled (gives_pure (by simp [Settled, flagBranch]))
  | call _ hresolved => exact hsettled (ctx.gives_call hresolved)
  | callExternal _ name =>
    exact hsettled ((gives_text name).map fun _ _ => by simp [Settled])
  | format _ content =>
    exact hsettled ((gives_text content).map fun _ _ => by simp [Settled])
  | compareRegisters _ left right =>
    exact hsettled (gives_pure (settled_compareRegisters left right))

end LoweringContext

-- ==== forms

namespace ArgumentKind

/-- Kinds of arguments that are registers. -/
def registers : List ArgumentKind := [register, numericRegister, indexRegister]

/-- Kinds of arguments that are locals. -/
def localVariables : List ArgumentKind := [localVariable, localStore]

/-- Kinds of arguments that are types, and never null. -/
def types : List ArgumentKind := [type, primitiveType]

variable {kind : ArgumentKind} {operand : Operand}

theorem exists_register (hkind : kind ∈ registers)
    (h : kind.accepts operand = true) : ∃ r, operand = .register r := by
  simp only [registers, List.mem_cons, List.not_mem_nil, or_false] at hkind
  cases operand with
  | register r => exact ⟨r, rfl⟩
  | _ => rcases hkind with rfl | rfl | rfl <;> cases h

theorem exists_local (hkind : kind ∈ localVariables) (h : kind.accepts operand = true) :
    ∃ slot, operand = .var .locals slot := by
  simp only [localVariables, List.mem_cons, List.not_mem_nil, or_false] at hkind
  cases operand with
  | var kind slot =>
    cases kind with
    | argument => rcases hkind with rfl | rfl <;> cases h
    | locals => exact ⟨slot, rfl⟩
  | _ => rcases hkind with rfl | rfl <;> cases h

theorem exists_type (hkind : kind ∈ types)
    (h : kind.accepts operand = true) : ∃ spec, operand = .type spec := by
  simp only [types, List.mem_cons, List.not_mem_nil, or_false] at hkind
  cases operand with
  | type spec => exact ⟨spec, rfl⟩
  | _ => rcases hkind with rfl | rfl <;> cases h

theorem exists_argument (h : argument.accepts operand = true) :
    ∃ slot, operand = .var .argument slot := by
  cases operand with
  | var kind slot =>
    cases kind with
    | argument => exact ⟨slot, rfl⟩
    | locals => cases h
  | _ => cases h

theorem exists_constant (h : constant.accepts operand = true) :
    ∃ value, operand = .const value := by
  cases operand with
  | const value => exact ⟨value, rfl⟩
  | _ => cases h

theorem exists_format (h : format.accepts operand = true) :
    ∃ text, operand = .const (.str text) := by
  cases operand with
  | const value =>
    cases value with
    | str text => exact ⟨text, rfl⟩
    | _ => cases h
  | _ => cases h

theorem exists_flag (h : flag.accepts operand = true) : ∃ f, operand = .flag f := by
  cases operand with
  | flag f => exact ⟨f, rfl⟩
  | _ => cases h

theorem exists_label (h : label.accepts operand = true) :
    ∃ index target, operand = .label index target := by
  cases operand with
  | label index target => exact ⟨index, target, rfl⟩
  | _ => cases h

end ArgumentKind

namespace Form

open ArgumentKind

/-- Whether the lowering rule of a form covers what the form takes. -/
def lowers (form : Form) : Bool := match form.lowering with
  | .plain => (LoweringContext.plainOp? form.mnemonic).isSome
  | .loadConstant => form.args = [.register, .constant]
  | .push => form.args = [.register] ∨ form.args = [.constant]
  | .popRegister => form.args = [.register]
  | .registerUpdate | .element =>
    (∃ kind ∈ registers, form.args = [kind]) ∧ form.mnemonic ∈ form.lowering.mnemonics
  | .field =>
    form.args = [.field] ∧ form.mnemonic ∈ form.lowering.mnemonics
  | .variable =>
    form.args = [.argument] ∧ form.mnemonic ∈ VariableKind.argument.mnemonics
      ∨ (∃ kind ∈ localVariables, form.args = [kind])
        ∧ form.mnemonic ∈ VariableKind.locals.mnemonics
  | .flag => form.args = [.flag] ∧ form.mnemonic ∈ form.lowering.mnemonics
  | .typeOperand =>
    (∃ kind ∈ types, form.args = [kind]) ∧ form.mnemonic ∈ form.lowering.mnemonics
      ∨ form.args = [.typeOrNull] ∧ form.mnemonic = "ldtype"
  | .branch => form.args = [.label] ∧ form.mnemonic ∈ form.lowering.mnemonics
  | .flagBranch => form.args = [.flag, .label]
  | .call => form.args = [.method]
  | .callExternal => form.args = [.functionId]
  | .compareStack => form.args = []
  | .compareRegisters => form.args = [.register, .register]
  | .format => form.args = [.format]

/-- Every form of the standard set is lowered by a rule that knows it. -/
theorem lowers_standard : ∀ form ∈ InstructionSet.standard.forms, form.lowers = true := by
  decide

section Takes

variable {form : Form} {operands : List Operand} {kind second : ArgumentKind}

theorem Takes.none (h : form.Takes operands) (hargs : form.args = []) : operands = [] := by
  unfold Takes at h
  rw [hargs] at h
  exact List.forall₂_nil_left_iff.1 h

theorem Takes.one (h : form.Takes operands) (hargs : form.args = [kind]) :
    ∃ operand, operands = [operand] ∧ kind.accepts operand = true := by
  unfold Takes at h
  rw [hargs] at h
  rcases h with _ | ⟨haccepts, _ | _⟩
  exact ⟨_, rfl, haccepts⟩

theorem Takes.two (h : form.Takes operands) (hargs : form.args = [kind, second]) :
    ∃ operand other, operands = [operand, other]
      ∧ kind.accepts operand = true ∧ second.accepts other = true := by
  unfold Takes at h
  rw [hargs] at h
  rcases h with _ | ⟨haccepts, _ | ⟨hsecond, _ | _⟩⟩
  exact ⟨_, _, rfl, haccepts, hsecond⟩

end Takes

/-- What a form takes is covered by its rule, if the form has a rule that
suits it. -/
theorem covers_of_takes {form : Form} {operands : List Operand}
    (hform : form.lowers = true) (htakes : form.Takes operands)
    (hresolved : ∀ operand ∈ operands, ∀ reference ∈ operand.reference?,
      reference.isPending = false) :
    form.lowering.Covers form.mnemonic operands := by
  obtain ⟨mnemonic, _, _, _, rule⟩ := form
  cases rule with
  | plain => exact .plain hform
  | loadConstant =>
    obtain ⟨_, _, rfl, hfirst, hsecond⟩ := htakes.two (of_decide_eq_true hform)
    obtain ⟨r, rfl⟩ := exists_register (by decide) hfirst
    obtain ⟨value, rfl⟩ := exists_constant hsecond
    exact .loadConstant mnemonic r value
  | push =>
    rcases of_decide_eq_true hform with hargs | hargs
    · obtain ⟨_, rfl, haccepts⟩ := htakes.one hargs
      obtain ⟨r, rfl⟩ := exists_register (by decide) haccepts
      exact .pushRegister mnemonic r
    · obtain ⟨_, rfl, haccepts⟩ := htakes.one hargs
      obtain ⟨value, rfl⟩ := exists_constant haccepts
      exact .pushConstant mnemonic value
  | popRegister =>
    obtain ⟨_, rfl, haccepts⟩ := htakes.one (of_decide_eq_true hform)
    obtain ⟨r, rfl⟩ := exists_register (by decide) haccepts
    exact .popRegister mnemonic r
  | registerUpdate =>
    obtain ⟨⟨kind, hkind, hargs⟩, hknown⟩ := of_decide_eq_true hform
    obtain ⟨_, rfl, haccepts⟩ := htakes.one hargs
    obtain ⟨r, rfl⟩ := exists_register hkind haccepts
    exact .registerUpdate r hknown
  | field =>
    obtain ⟨hargs, hknown⟩ := of_decide_eq_true hform
    obtain ⟨operand, rfl, haccepts⟩ := htakes.one hargs
    cases operand with
    | field =>
      exact .field (hresolved _ (List.mem_singleton_self _) _ rfl) hknown
    | _ => cases haccepts
  | «variable» =>
    rcases of_decide_eq_true hform with
      ⟨hargs, hknown⟩ | ⟨⟨kind, hkind, hargs⟩, hknown⟩
    · obtain ⟨_, rfl, haccepts⟩ := htakes.one hargs
      obtain ⟨slot, rfl⟩ := exists_argument haccepts
      exact .access slot hknown
    · obtain ⟨_, rfl, haccepts⟩ := htakes.one hargs
      obtain ⟨slot, rfl⟩ := exists_local hkind haccepts
      exact .access slot hknown
  | element =>
    obtain ⟨⟨kind, hkind, hargs⟩, hknown⟩ := of_decide_eq_true hform
    obtain ⟨_, rfl, haccepts⟩ := htakes.one hargs
    obtain ⟨r, rfl⟩ := exists_register hkind haccepts
    exact .element r hknown
  | flag =>
    obtain ⟨hargs, hknown⟩ := of_decide_eq_true hform
    obtain ⟨_, rfl, haccepts⟩ := htakes.one hargs
    obtain ⟨f, rfl⟩ := exists_flag haccepts
    exact .flag f hknown
  | typeOperand =>
    rcases of_decide_eq_true hform with
      ⟨⟨kind, hkind, hargs⟩, hknown⟩ | ⟨hargs, hname⟩
    · obtain ⟨_, rfl, haccepts⟩ := htakes.one hargs
      obtain ⟨spec, rfl⟩ := exists_type hkind haccepts
      exact .typeOperand (hresolved _ (List.mem_singleton_self _) _ rfl) hknown
    · obtain ⟨operand, rfl, haccepts⟩ := htakes.one hargs
      obtain rfl : mnemonic = "ldtype" := hname
      cases operand with
      | type =>
        exact .typeOperand (hresolved _ (List.mem_singleton_self _) _ rfl) (.head _)
      | nullType => exact .nullType
      | _ => cases haccepts
  | branch =>
    obtain ⟨hargs, hknown⟩ := of_decide_eq_true hform
    obtain ⟨_, rfl, haccepts⟩ := htakes.one hargs
    obtain ⟨index, target, rfl⟩ := exists_label haccepts
    exact .branch index target hknown
  | flagBranch =>
    obtain ⟨_, _, rfl, hfirst, hsecond⟩ := htakes.two (of_decide_eq_true hform)
    obtain ⟨f, rfl⟩ := exists_flag hfirst
    obtain ⟨index, target, rfl⟩ := exists_label hsecond
    exact .flagBranch mnemonic f index target
  | call =>
    obtain ⟨operand, rfl, haccepts⟩ := htakes.one (of_decide_eq_true hform)
    cases operand with
    | method =>
      exact .call mnemonic (hresolved _ (List.mem_singleton_self _) _ rfl)
    | _ => cases haccepts
  | callExternal =>
    obtain ⟨operand, rfl, haccepts⟩ := htakes.one (of_decide_eq_true hform)
    cases operand with
    | function name => exact .callExternal mnemonic name
    | _ => cases haccepts
  | compareStack =>
    obtain rfl := htakes.none (of_decide_eq_true hform)
    exact .compareStack mnemonic
  | compareRegisters =>
    obtain ⟨_, _, rfl, hfirst, hsecond⟩ := htakes.two (of_decide_eq_true hform)
    obtain ⟨left, rfl⟩ := exists_register (by decide) hfirst
    obtain ⟨right, rfl⟩ := exists_register (by decide) hsecond
    exact .compareRegisters mnemonic left right
  | format =>
    obtain ⟨operand, rfl, haccepts⟩ := htakes.one (of_decide_eq_true hform)
    obtain ⟨text, rfl⟩ := exists_format haccepts
    exact .format mnemonic text

end Form

end StackAsm
