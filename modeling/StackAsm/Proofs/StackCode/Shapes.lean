/-
The shapes of blocks, the code of one instruction whenever there is any.
Most operations stand for themselves. A few take part in something larger
than their block: those that name a symbol or a text by its index in the
tables of the module, variables, those whose array index may be checked,
and compares. `BlockShape` says where these can stand, so that whoever
asks about them goes through its cases and not through the rules. Where
there is no code, the fault blames a reference only if an operand has one
that is still pending (`Blames`).

The tables only grow while a program is lowered (`StackTables.Grows`). So
an index is good in the tables that the program ends with, and shapes are
stated for these from the start. Each rule is looked at once, for its
answers and its faults together (`Lower.Within`).
-/
import StackAsm.StackCode.Module
import StackAsm.Proofs.Bytes.Heap

namespace StackAsm

-- ==== tables

namespace StackTables

/-- Whether no symbol and no text is there twice. -/
structure Distinct (tables : StackTables) : Prop where
  symbols : tables.symbols.Nodup
  strings : tables.strings.entries.toList.Nodup

/-- `later` has the symbols and texts of `tables`, perhaps with more
behind them, none of them twice. -/
structure Grows (tables later : StackTables) : Prop where
  symbols : tables.symbols <+: later.symbols
  strings : tables.strings.Grows later.strings
  distinct : tables.Distinct → later.Distinct

/-- The symbol is in the tables, and `id` is its place in thirty-two
bits. -/
def HasSymbol (tables : StackTables) (id : UInt32) (symbol : Symbol) :
    Prop := ∃ place, id = UInt32.ofNat place ∧ tables.symbols[place]? = some symbol

/-- The text is in the tables, and `index` is its place in thirty-two
bits. -/
def HasText (tables : StackTables) (index : UInt32) (text : String) :
    Prop := ∃ place, index = UInt32.ofNat place ∧ tables.strings.entries[place]? = some text

variable {tables later final : StackTables}

theorem Grows.refl (tables : StackTables) : tables.Grows tables := ⟨List.prefix_refl _, .refl _, id⟩

theorem Grows.trans (h : tables.Grows later) (h' : later.Grows final) : tables.Grows final where
  symbols := h.symbols.trans h'.symbols
  strings := h.strings.trans h'.strings
  distinct hdistinct := h'.distinct (h.distinct hdistinct)

theorem Grows.hasSymbol (h : tables.Grows later) {id : UInt32}
    {symbol : Symbol} (hsymbol : tables.HasSymbol id symbol) :
    later.HasSymbol id symbol := by
  obtain ⟨place, hid, hplace⟩ := hsymbol
  obtain ⟨_, hmore⟩ := h.symbols
  have hinside := (List.getElem?_eq_some_iff.1 hplace).1
  refine ⟨place, hid, ?_⟩
  rw [← hmore, List.getElem?_append_left hinside]
  exact hplace

theorem Grows.hasText (h : tables.Grows later) {index : UInt32}
    {text : String} (htext : tables.HasText index text) :
    later.HasText index text := by
  obtain ⟨place, hindex, hplace⟩ := htext
  exact ⟨place, hindex, h.strings.getElem? hplace⟩

/-- A symbol that is asked for is there afterwards. -/
theorem hasSymbol_intern (tables : StackTables) (symbol : Symbol) :
    (tables.intern symbol).2.HasSymbol (tables.intern symbol).1 symbol := by
  unfold intern
  cases hfound : tables.symbols.idxOf? symbol with
  | some place =>
    obtain ⟨hinside, hplace, -⟩ := List.idxOf?_eq_some_iff.1 hfound
    refine ⟨place, rfl, ?_⟩
    show tables.symbols[place]? = some symbol
    rw [List.getElem?_eq_getElem hinside, hplace]
  | none =>
    refine ⟨tables.symbols.length, rfl, ?_⟩
    show (tables.symbols ++ [symbol])[tables.symbols.length]? = some symbol
    rw [List.getElem?_append_right (Nat.le_refl _), Nat.sub_self]
    rfl

theorem grows_intern (tables : StackTables) (symbol : Symbol) :
    tables.Grows (tables.intern symbol).2 := by
  unfold intern
  cases hfound : tables.symbols.idxOf? symbol with
  | some => exact .refl tables
  | none =>
    have hnew : symbol ∉ tables.symbols := List.idxOf?_eq_none_iff.1 hfound
    refine ⟨List.prefix_append _ _, .refl _, fun hdistinct =>
      ⟨?_, hdistinct.strings⟩⟩
    show (tables.symbols ++ [symbol]).Nodup
    rw [List.nodup_append]
    refine ⟨hdistinct.symbols, List.pairwise_singleton _ _, ?_⟩
    intro known hknown other hother hsame
    rw [List.mem_singleton.1 hother] at hsame
    exact hnew (hsame ▸ hknown)

/-- Tables with a text that is asked for. -/
theorem grows_internText (tables : StackTables) (text : String) :
    tables.Grows { tables with strings := (tables.strings.intern text).2 } := by
  refine ⟨List.prefix_refl _, StringHeap.grows_intern _ _, fun hdistinct =>
    ⟨hdistinct.symbols, ?_⟩⟩
  show (tables.strings.intern text).2.entries.toList.Nodup
  unfold StringHeap.intern
  rw [StringHeap.lookup?_eq]
  cases hfound : tables.strings.entries.toList.idxOf? text with
  | some => exact hdistinct.strings
  | none =>
    have hnew : text ∉ tables.strings.entries.toList := List.idxOf?_eq_none_iff.1 hfound
    show (tables.strings.entries.push text).toList.Nodup
    rw [Array.toList_push, List.nodup_append]
    refine ⟨hdistinct.strings, List.pairwise_singleton _ _, ?_⟩
    intro known hknown other hother hsame
    rw [List.mem_singleton.1 hother] at hsame
    exact hnew (hsame ▸ hknown)

end StackTables

-- ==== steps on growing tables

namespace Lower

variable {α β : Type}

/-- Where the step ends with tables that grow to the final ones, it starts
with such tables, and its answer has the one property, which may be about
the final ones. Every fault of it has the other. -/
structure Within (final : StackTables) (step : Lower α) (P : α → Prop)
    (F : LoweringFault → Prop) : Prop where
  ok : ∀ {tables value later}, step.run tables = .ok value later →
    later.Grows final → tables.Grows final ∧ P value
  error : ∀ {tables fault later}, step.run tables = .error fault later → F fault

variable {final : StackTables} {step : Lower α} {next : α → Lower β}
  {P : α → Prop} {Q : β → Prop} {F : LoweringFault → Prop}

theorem within_pure {value : α} (h : P value) : Within final (pure value) P F where
  ok hrun hgrows := by
    obtain ⟨rfl, rfl⟩ := run_pure_ok_iff.1 hrun
    exact ⟨hgrows, h⟩
  error hrun := by cases hrun

theorem within_throw {fault : LoweringFault} (h : F fault) :
    Within final (throw fault : Lower α) P F where
  ok hrun := (run_throw_ok_iff.1 hrun).elim
  error hrun := by
    cases hrun
    exact h

theorem Within.bind (hstep : step.Within final P F)
    (hnext : ∀ value, (next value).Within final (fun result => P value → Q result) F) :
    Within final (step >>= next) Q F where
  ok hrun hgrows := by
    obtain ⟨value, _, hvalue, hrest⟩ := run_bind_ok_iff.1 hrun
    obtain ⟨hmiddle, hQ⟩ := (hnext value).ok hrest hgrows
    obtain ⟨hstart, hP⟩ := hstep.ok hvalue hmiddle
    exact ⟨hstart, hQ hP⟩
  error hrun := by
    rcases run_bind_error_iff.1 hrun with hfault | ⟨value, _, _, hrest⟩
    · exact hstep.error hfault
    · exact (hnext value).error hrest

theorem Within.map (hstep : step.Within final P F) {f : α → β}
    (himp : ∀ value, P value → Q (f value)) :
    Within final (step >>= fun value => pure (f value)) Q F :=
  hstep.bind fun value => within_pure (himp value)

theorem Within.imp_error (hstep : step.Within final P F)
    {F' : LoweringFault → Prop} (himp : ∀ fault, F fault → F' fault) :
    step.Within final P F' := ⟨hstep.ok, fun hrun => himp _ (hstep.error hrun)⟩

/-- A step for each of several items. -/
theorem within_mapM {f : α → Lower β} {R : α → β → Prop} {items : List α}
    (h : ∀ item ∈ items, (f item).Within final (R item) F) :
    Within final (items.mapM f) (List.Forall₂ R items) F := by
  induction items with
  | nil => exact within_pure .nil
  | cons item rest ih =>
    rw [List.forall_mem_cons] at h
    rw [List.mapM_cons]
    refine h.1.bind fun _ => (ih h.2).map fun _ hothers => ?_
    exact fun hvalue => .cons hvalue hothers

end Lower

open Lower

-- ==== operations

namespace StackOp

/-- Whether an operation names no symbol, no text and no variable, has no
array index, marks no label and is no compare. -/
def isPlain : StackOp → Bool
  | .const (.str _) | .loadField _ _ _ _ | .storeField _ _ | .call _ _ _ _
  | .callHost _ | .var _ _ _ | .element _ _ | .mark _
  | .callRoutine .compare | .pending _ => false
  | _ => true

/-- The index of the field that an operation loads or stores. -/
def field? : StackOp → Option UInt32
  | .loadField _ _ id _ | .storeField _ id => some id
  | _ => none

end StackOp

/-- Code with plain operations only. -/
def IsPlainCode (ops : List StackOp) : Prop := ∀ op ∈ ops, op.isPlain = true

theorem not_mem_of_isPlainCode {ops : List StackOp} (h : IsPlainCode ops)
    {op : StackOp} (hop : op.isPlain = false) : op ∉ ops := by
  intro hmem
  rw [h op hmem] at hop
  cases hop

theorem isPlainCode_boxing (type : StackType) : IsPlainCode (StackMethod.boxing type) := by
  unfold StackMethod.boxing
  split
  · exact List.forall_mem_singleton.2 rfl
  · exact fun _ hop => (List.not_mem_nil hop).elim

theorem isPlainCode_compareOperand (r : Register) :
    IsPlainCode (LoweringContext.compareOperand r) :=
  List.forall_mem_cons.2 ⟨rfl, isPlainCode_boxing _⟩

/-- What an instruction with those operands may become, where array
indices are left unchecked or not. -/
inductive BlockShape (unchecked : Bool) (final : StackTables) :
    List Operand → List StackOp → Prop where
  | plain {operands : List Operand} {ops : List StackOp} (hne : ops ≠ [])
      (hops : IsPlainCode ops) : BlockShape unchecked final operands ops
  | variable (access : Access) (kind : VariableKind) (slot : UInt16) :
      BlockShape unchecked final [.var kind slot] [.var access kind slot]
  | text {operands : List Operand} {text : String} {index : UInt32}
      {rest : List StackOp} (hoperand : .const (.str text) ∈ operands)
      (htext : final.HasText index text) (hrest : IsPlainCode rest) :
      BlockShape unchecked final operands (.const (.str index) :: rest)
  | field {symbol : Symbol} {id : UInt32} {op : StackOp}
      (hop : op.field? = some id) (hsymbol : final.HasSymbol id symbol) :
      BlockShape unchecked final [.field (.resolved symbol)] [op]
  | call {symbol : Symbol} {id : UInt32} (args : UInt16) (hasThis : Bool)
      (result : StackType) (hsymbol : final.HasSymbol id symbol) :
      BlockShape unchecked final [.method (.resolved symbol)] [.call id args hasThis result]
  | callHost {name : String} {index : UInt32} (htext : final.HasText index name) :
      BlockShape unchecked final [.function name] [.callHost index]
  | element {operands : List Operand} (r : Register) (access : Access) :
      BlockShape unchecked final operands [.loadRegister r, .element access (!unchecked)]
  | compareRegisters {operands : List Operand} (left right : Register) :
      BlockShape unchecked final operands
        (LoweringContext.compareOperand left ++ LoweringContext.compareOperand right
          ++ [.callRoutine .compare])
  | compareStack {operands : List Operand} : BlockShape unchecked final operands [.pending .compare]

/-- Whether the fault is that a reference is not resolved. -/
def LoweringFault.isUnresolved : LoweringFault → Bool
  | .unresolved _ _ => true
  | _ => false

/-- Why an instruction with those operands may have no code. -/
def Blames (operands : List Operand) (fault : LoweringFault) : Prop :=
  fault.isUnresolved = true → ∃ operand ∈ operands,
    ∃ reference ∈ operand.reference?, reference.isPending = true

theorem Blames.mono {operands more : List Operand} {fault : LoweringFault}
    (h : Blames operands fault) (hmore : operands ⊆ more) :
    Blames more fault := by
  intro hfault
  obtain ⟨operand, hop, hpending⟩ := h hfault
  exact ⟨operand, hmore hop, hpending⟩

namespace LoweringContext

variable {unchecked : Bool} {op : StackOp}

variable (ctx : LoweringContext) {final : StackTables}
  {operands : List Operand} {F : LoweringFault → Prop}

/-- The step gives a block for the operands or blames one of them. -/
abbrev Makes (final : StackTables) (operands : List Operand) (step : Lower (List StackOp)) : Prop :=
  step.Within final (BlockShape ctx.options.unchecked final operands) (Blames operands)

-- ==== parts

theorem makes_badOperands : ctx.Makes final operands ctx.badOperands := within_throw nofun

theorem within_symbol {operand : Operand} {reference : Reference}
    (hmem : operand ∈ operands) (href : reference ∈ operand.reference?) :
    (ctx.symbol reference).Within final
      (fun found => ∃ symbol, reference = .resolved symbol
        ∧ final.HasSymbol found.1 symbol) (Blames operands) := by
  cases reference with
  | pending =>
    exact within_throw fun _ => ⟨operand, hmem, _, href, rfl⟩
  | resolved symbol =>
    refine ⟨fun {tables found later} hrun hgrows => ?_, fun hrun => ?_⟩
    · cases hrun
      exact ⟨(tables.grows_intern symbol).trans hgrows, symbol, rfl,
        hgrows.hasSymbol (tables.hasSymbol_intern symbol)⟩
    · cases hrun

theorem within_text (content : String) :
    (text content).Within final (fun index => final.HasText index content) F where
  ok {tables index later} hrun hgrows := by
    cases hrun
    obtain ⟨place, hindex, hplace⟩ := tables.strings.intern_place content
    exact ⟨(tables.grows_internText content).trans hgrows, hgrows.hasText ⟨place, hindex, hplace⟩⟩
  error hrun := by cases hrun

/-- A constant in code, and the one it is made from: they are texts
together. -/
def SameText (final : StackTables) (value : Constant) (made : StackConstant) : Prop :=
  ∀ index, made = .str index → ∃ text, value = .str text ∧ final.HasText index text

theorem within_constant (value : Constant) :
    (constant value).Within final (SameText final value) F := by
  cases value with
  | str value =>
    refine (within_text value).map fun index htext _ hother => ?_
    cases hother
    exact ⟨value, rfl, htext⟩
  | _ =>
    refine within_pure fun index hindex => ?_
    cases hindex

theorem within_registerConstant (r : Register) (value : Constant) :
    (registerConstant r value).Within final (SameText final value) F := by
  unfold registerConstant
  split
  case h_6 => exact within_constant _
  all_goals
    refine within_pure fun _ hindex => ?_
    cases hindex

/-- The block of a constant and plain operations behind it. -/
theorem shape_constant {value : Constant} {made : StackConstant}
    {rest : List StackOp} (hmade : SameText final value made)
    (hop : .const value ∈ operands) (hrest : IsPlainCode rest) :
    BlockShape unchecked final operands (.const made :: rest) := by
  cases made with
  | str index =>
    obtain ⟨_, rfl, htext⟩ := hmade index rfl
    exact .text hop htext hrest
  | _ =>
    exact .plain (List.cons_ne_nil _ _) (List.forall_mem_cons.2 ⟨rfl, hrest⟩)

-- ==== families

theorem isPlain_of_plainOp? {mnemonic : String}
    (h : plainOp? mnemonic = some op) : op.isPlain = true := by
  unfold plainOp? at h
  split at h
  all_goals cases h
  all_goals rfl

/-- Code of one plain operation. -/
theorem shape_one (h : op.isPlain = true) :
    BlockShape unchecked final operands [op] :=
  .plain (List.cons_ne_nil _ _) (List.forall_mem_singleton.2 h)

/-- Code of two plain operations. -/
theorem shape_two {other : StackOp} (h : op.isPlain = true) (hother : other.isPlain = true) :
    BlockShape unchecked final operands [op, other] :=
  .plain (List.cons_ne_nil _ _) (List.forall_mem_cons.2 ⟨h, List.forall_mem_singleton.2 hother⟩)

theorem makes_plain : ctx.Makes final operands ctx.plain := by
  unfold plain
  split
  · rename_i op hop
    exact within_pure (shape_one (isPlain_of_plainOp? hop))
  · exact ctx.makes_badOperands

theorem makes_registerUpdate (r : Register) : ctx.Makes final operands (ctx.registerUpdate r) := by
  have hone : (StackOp.const (one r)).isPlain = true := by
    unfold one
    split <;> rfl
  have hcleared : (StackOp.const (cleared r)).isPlain = true := by
    cases r <;> rfl
  have hupdate : ∀ op : BinaryOp, IsPlainCode [.loadRegister r,
      .const (one r), .binary op, .storeRegister r] := by
    intro op
    simp only [IsPlainCode, List.forall_mem_cons]
    exact ⟨rfl, hone, rfl, rfl, fun _ hop => (List.not_mem_nil hop).elim⟩
  unfold registerUpdate
  split
  · exact within_pure (.plain (List.cons_ne_nil _ _) (hupdate .add))
  · exact within_pure (.plain (List.cons_ne_nil _ _) (hupdate .sub))
  · exact within_pure (shape_two hcleared rfl)
  · exact ctx.makes_badOperands

theorem makes_field (reference : Reference) :
    ctx.Makes final [.field reference] (ctx.field reference) := by
  refine (ctx.within_symbol (List.mem_singleton_self _) rfl).bind fun ⟨_, _⟩ => ?_
  simp only
  split
  case h_7 => exact within_throw nofun
  all_goals
    refine within_pure ?_
    rintro ⟨_, rfl, hsymbol⟩
    exact .field rfl hsymbol

theorem makes_variableAccess (kind : VariableKind) (slot : UInt16) :
    ctx.Makes final [.var kind slot] (ctx.variableAccess kind slot) := by
  unfold variableAccess
  split
  case h_7 => exact ctx.makes_badOperands
  all_goals exact within_pure (.variable ..)

theorem makes_element (r : Register) : ctx.Makes final operands (ctx.element r) := by
  unfold element
  split
  case h_4 => exact ctx.makes_badOperands
  all_goals exact within_pure (.element r _)

theorem makes_flag (f : Flag) : ctx.Makes final operands (ctx.flag f) := by
  unfold flag
  split
  · exact within_pure (shape_two rfl rfl)
  · exact within_pure (shape_two rfl rfl)
  · exact within_pure (shape_one rfl)
  · exact ctx.makes_badOperands

theorem makes_typeOperand (spec : TypeSpec) :
    ctx.Makes final [.type spec] (ctx.typeOperand spec) := by
  refine (ctx.within_symbol (List.mem_singleton_self _) rfl).bind fun _ => ?_
  split
  case h_9 => exact within_throw nofun
  all_goals exact within_pure fun _ => shape_one rfl

theorem makes_branch (label : UInt16) : ctx.Makes final operands (ctx.branch label) := by
  unfold branch
  split
  case h_4 => exact ctx.makes_badOperands
  all_goals exact within_pure (shape_one rfl)

theorem makes_call (reference : Reference) :
    ctx.Makes final [.method reference] (ctx.call reference) := by
  refine (ctx.within_symbol (List.mem_singleton_self _) rfl).bind fun ⟨_, _⟩ => ?_
  refine within_pure ?_
  rintro ⟨_, rfl, hsymbol⟩
  exact .call _ _ _ hsymbol

/-- Whatever an instruction is lowered to has one of the shapes. -/
theorem makes_lower (rule : LoweringRule) (operands : List Operand) :
    ctx.Makes final operands (ctx.lower rule operands) := by
  -- a rule refuses operands that it does not expect, and then makes nothing
  cases rule <;> dsimp only [lower]
  case plain => exact ctx.makes_plain
  case loadConstant =>
    split
    · rename_i r value
      refine (within_registerConstant r value).map fun made hmade => ?_
      exact shape_constant hmade (.tail _
        (List.mem_singleton_self _)) (List.forall_mem_singleton.2 rfl)
    · exact ctx.makes_badOperands
  case push =>
    split
    · exact within_pure (shape_one rfl)
    · rename_i value
      refine (within_constant value).map fun made hmade => ?_
      exact shape_constant hmade (List.mem_singleton_self _)
        fun _ hop => (List.not_mem_nil hop).elim
    · exact ctx.makes_badOperands
  case popRegister =>
    split
    · exact within_pure (shape_one rfl)
    · exact ctx.makes_badOperands
  case registerUpdate =>
    split
    · exact ctx.makes_registerUpdate _
    · exact ctx.makes_badOperands
  case field =>
    split
    · exact ctx.makes_field _
    · exact ctx.makes_badOperands
  case «variable» =>
    split
    · exact ctx.makes_variableAccess _ _
    · exact ctx.makes_badOperands
  case element =>
    split
    · exact ctx.makes_element _
    · exact ctx.makes_badOperands
  case flag =>
    split
    · exact ctx.makes_flag _
    · exact ctx.makes_badOperands
  case typeOperand =>
    split
    · exact ctx.makes_typeOperand _
    · split
      · exact within_pure (shape_one rfl)
      · exact ctx.makes_badOperands
    · exact ctx.makes_badOperands
  case branch =>
    split
    · exact ctx.makes_branch _
    · exact ctx.makes_badOperands
  case flagBranch =>
    split
    · exact within_pure (shape_two rfl rfl)
    · exact ctx.makes_badOperands
  case call =>
    split
    · exact ctx.makes_call _
    · exact ctx.makes_badOperands
  case callExternal =>
    split
    · exact (within_text _).map fun _ htext => .callHost htext
    · exact ctx.makes_badOperands
  case format =>
    split
    · rename_i format
      refine (within_text format).map fun _ htext => ?_
      exact .text (List.mem_singleton_self _) htext (List.forall_mem_singleton.2 rfl)
    · exact ctx.makes_badOperands
  case compareRegisters =>
    split
    · exact within_pure (.compareRegisters _ _)
    · exact ctx.makes_badOperands
  case compareStack =>
    split
    · exact within_pure .compareStack
    · exact ctx.makes_badOperands

end LoweringContext

-- ==== blocks

namespace Lowering

variable (lowering : Lowering)

theorem within_block (final : StackTables) (method : String) (index : Nat)
    (instruction : Instruction) :
    (lowering.block method index instruction).Within final
      (BlockShape lowering.options.unchecked final instruction.operands)
      (Blames instruction.operands) := by
  unfold block
  split
  · exact within_throw nofun
  · exact LoweringContext.makes_lower _ _ _

/-- The instruction at a place of the method of that full name becomes
the code. -/
def Lowers (method : String) (entry : Instruction × Nat) (ops : List StackOp) : Prop :=
  ∃ tables later, (lowering.block method entry.2 entry.1).run tables = .ok ops later

/-- The block of an instruction has a shape, in the tables that lowering
it ends with. -/
theorem Lowers.shape {lowering : Lowering} {method : String}
    {entry : Instruction × Nat} {ops : List StackOp} (h : lowering.Lowers method entry ops) :
    ∃ final, BlockShape lowering.options.unchecked final entry.1.operands ops := by
  obtain ⟨_, later, hrun⟩ := h
  exact ⟨later, ((lowering.within_block _ _ _ _).ok hrun (.refl later)).2⟩

end Lowering

end StackAsm
