/-
Variables in a body. Where a form takes a variable the operand has the
place of the one that its argument means as a slot. Places are found among
the variables that a method has so far, implicit ones behind those
declared; an instruction appends its implicit locals in the order in which
it counted them (`Form.Reads.names`). From then on variables and instructions are only
added, while the method is open and after it is closed
(`ParseState.Retains`), so the place stays that of the variable
(`Program.exists_method_of_atInstruction`).
-/
import StackAsm.Proofs.Parse.Aliases
import StackAsm.Proofs.Parse.Isolation

namespace StackAsm

open TypeEntry

-- ==== variables

/-- The variables of a method that slots of a kind count. -/
def Method.vars (method : Method) : VariableKind → List Variable
  | .argument => method.params
  | .locals => method.body.locals

namespace Form

variable {ctx : ArgumentContext} {operands : List Operand} {implicit implicit' : List String}

/-- Whether the operands of an instruction name the variables that its
arguments mean, at every position that takes one. -/
def NamesAll (form : Form) (vars : VariableKind → List Variable)
    (args : List Argument) (operands : List Operand) : Prop :=
  List.Forall₂ (fun position operand =>
    Operand.Names vars position.1 position.2 operand)
    (form.args.zip args) operands

/-- What an instruction is read as names the variables that its arguments
mean, with the implicit locals it declares behind the others. -/
theorem Reads.names {kinds : List ArgumentKind} {args : List Argument}
    (h : Reads ctx kinds args implicit operands implicit') :
    kinds.length = args.length ∧ implicit <+: implicit' ∧ List.Forall₂ (fun position operand =>
        Operand.Names (ctx.vars implicit') position.1 position.2 operand)
        (kinds.zip args) operands := by
  induction h with
  | nil => exact ⟨rfl, List.prefix_rfl, .nil⟩
  | cons hfirst _ ih =>
    have hgives := ArgumentContext.gives_of_read hfirst
    obtain ⟨new, hnew, -⟩ := hgives.declares
    obtain ⟨hlength, hafter, hothers⟩ := ih
    exact ⟨congrArg Nat.succ hlength, List.IsPrefix.trans ⟨new, hnew.symm⟩ hafter,
      .cons (hgives.names.mono (ArgumentContext.prefix_vars hafter)) hothers⟩

variable {form : Form} {args : List Argument} {vars more : VariableKind → List Variable}

theorem NamesAll.mono (h : form.NamesAll vars args operands)
    (hmore : ∀ which, (vars which).map (·.name) <+: (more which).map (·.name)) :
    form.NamesAll more args operands := h.imp fun _ _ hnames => hnames.mono hmore

/-- Targets of branches do not count. -/
theorem NamesAll.of_unaimed {operands' : List Operand} (h : form.NamesAll vars args operands)
    (hsame : operands'.map Operand.unaimed
      = operands.map Operand.unaimed) :
    form.NamesAll vars args operands' := by
  have hview : ∀ operands : List Operand, form.NamesAll vars args (operands.map Operand.unaimed)
        ↔ form.NamesAll vars args operands := by
    intro operands
    simp only [NamesAll, List.forall₂_map_right_iff, Operand.names_unaimed]
  rw [← hview, hsame, hview]
  exact h

/-- References do not count. -/
theorem NamesAll.mapReference (h : form.NamesAll vars args operands) (f : Reference → Reference) :
    form.NamesAll vars args (operands.map (Operand.mapReference f)) := by
  simp only [NamesAll, List.forall₂_map_right_iff, Operand.names_mapReference]
  exact h

end Form

-- ==== growth

namespace OpenMethod

/-- Whether a method that is being read grows to another one: what it has
stays, and variables and instructions may be added. -/
structure Grows (m later : OpenMethod) : Prop where
  name : later.method.name = m.method.name
  params : later.method.params = m.method.params
  locals : m.locals <+: later.locals
  instructions : m.instructions <:+ later.instructions

variable {m later last : OpenMethod}

theorem Grows.refl (m : OpenMethod) : m.Grows m := ⟨rfl, rfl, List.prefix_rfl, List.suffix_rfl⟩

theorem Grows.trans (hfirst : m.Grows later) (hsecond : later.Grows last) : m.Grows last where
  name := hsecond.name.trans hfirst.name
  params := hsecond.params.trans hfirst.params
  locals := hfirst.locals.trans hsecond.locals
  instructions := hfirst.instructions.trans hsecond.instructions

theorem grows_setMarks (m : OpenMethod) (seen declared : Bool) (line : Option Nat) :
    m.Grows { m with
      localsSeen := seen
      localsDeclared := declared
      localsLine := line } :=
  ⟨rfl, rfl, List.prefix_rfl, List.suffix_rfl⟩

theorem grows_addLocal (m : OpenMethod) (var : Variable) :
    m.Grows (m.setLocals (m.locals ++ [var])) := ⟨rfl, rfl, List.prefix_append .., List.suffix_rfl⟩

theorem grows_placeLabel {name : String} {line : Nat}
    (h : m.placeLabel name line = .ok later) : m.Grows later := by
  rcases placeLabel_cases h with ⟨_, _, -, -, -, rfl⟩ | ⟨-, -, rfl⟩ <;>
    exact ⟨rfl, rfl, List.prefix_rfl, List.suffix_rfl⟩

theorem grows_addInstruction (m : OpenMethod) (instruction : Instruction) (implicit : List String) :
    m.Grows (m.addInstruction instruction implicit) :=
  ⟨rfl, rfl, List.prefix_append .., List.suffix_cons ..⟩

end OpenMethod

-- ==== states

namespace ParseState

variable {set : InstructionSet} {text : List Char} {braces : List Brace}
  {state next : ParseState} {t : OpenType} {outer : List Block}
  {full : String} {method : Method} {m : OpenMethod}

/-- Whether a type has a method as it has become since it was at `m`: it
is still open, or it was closed. -/
inductive Retains (full : String) (m : OpenMethod) (state : ParseState) : Prop where
  | opened {t : OpenType} {outer : List Block} {later : OpenMethod}
      (hblocks : state.blocks = .type t :: outer)
      (hmethod : t.method = some later) (hfull : t.full = full)
      (hgrows : m.Grows later) : Retains full m state
  | closed {later : OpenMethod} (hhas : Has state.entries full later.finish)
      (hgrows : m.Grows later) : Retains full m state

theorem Retains.of_blocks (h : state.Retains full m) (hprogram : next.program = state.program)
    (hblocks : next.blocks = state.blocks) : next.Retains full m := by
  cases h with
  | opened hsame hmethod hfull hgrows =>
    exact .opened (hblocks.trans hsame) hmethod hfull hgrows
  | closed hhas hgrows =>
    refine .closed ?_ hgrows
    unfold entries
    rw [hprogram, hblocks]
    exact hhas

theorem retains_closeBlock (hnested : Block.Nested state.blocks)
    (h : state.Retains full m) : state.closeBlock.Retains full m := by
  cases h with
  | closed hhas hgrows =>
    obtain ⟨_, hgains, -⟩ := exists_gain_of_closeBlock hnested
    exact .closed ((hgains _ _).2 (.inl hhas)) hgrows
  | @opened t outer later hblocks hmethod hfull hgrows =>
    unfold closeBlock
    rw [hblocks]
    simp only
    rw [hmethod]
    simp only
    split
    · exact .opened rfl rfl hfull (hgrows.trans (later.grows_setMarks ..))
    · refine .closed ((gains_addMethod hblocks _ _ _ _).2 (.inr ?_)) hgrows
      rw [hfull]

/-- A statement that changes the open method makes it grow. -/
theorem retains_putType {later changed : OpenMethod} (hblocks : state.blocks = .type t :: outer)
    (hmethod : t.method = some later) (hgrows : later.Grows changed) (h : state.Retains full m) :
    (state.putType { t with method := some changed } outer).Retains full m := by
  cases h with
  | closed hhas hold =>
    exact .closed ((entries_putType hblocks rfl).symm ▸ hhas) hold
  | opened hsame hopen hfull hold =>
    rw [hblocks] at hsame
    cases hsame
    rw [hmethod] at hopen
    cases hopen
    exact .opened rfl rfl hfull (hold.trans hgrows)

/-- Outside of methods all that there is of a method is closed. -/
theorem Retains.has_of_outside (houtside : state.InSpace ∨ ∃ t outer, state.InType t outer)
    (h : state.Retains full m) :
    ∃ later, Has state.entries full later.finish ∧ m.Grows later := by
  cases h with
  | closed hhas hgrows => exact ⟨_, hhas, hgrows⟩
  | opened hblocks hmethod =>
    rcases houtside with hspace | ⟨_, _, htype⟩
    · obtain ⟨_, hline⟩ := hspace _ (by rw [hblocks]; rfl)
      cases hline
    · have hsame := htype.blocks
      rw [hblocks] at hsame
      cases hsame
      rw [htype.method] at hmethod
      cases hmethod

/-- A statement leaves a method as it is or adds to it. -/
theorem Effect.retains (heffect : Effect set text state braces next)
    (hnested : Block.Nested state.blocks) (h : state.Retains full m) :
    next.Retains full m := by
  have houtside : (state.InSpace ∨ ∃ t outer, state.InType t outer) → next.Retains full m := by
    intro houtside
    obtain ⟨_, hhas, hgrows⟩ := h.has_of_outside houtside
    obtain ⟨added, hgains, -⟩ := heffect.exists_gain hnested
    exact .closed ((hgains _ _).2 (.inl hhas)) hgrows
  cases heffect with
  | close => exact retains_closeBlock hnested h
  | noteImport wanted hspace | noteUsing path hspace | noteAlias name target hspace
  | noteExternal path hspace | openSpace rooted name line hspace => exact houtside (.inl hspace)
  | openType name attrs line hplace => exact houtside hplace
  | addField field htype | addMethod added htype | openMethod added htype =>
    exact houtside (.inr ⟨_, _, htype⟩)
  | @openLocals _ _ m line hmethod =>
    exact retains_putType hmethod.blocks hmethod.method (m.grows_setMarks ..) h
  | passComma => exact h
  | @addLocal _ _ m var hlocals =>
    exact retains_putType hlocals.blocks hlocals.method (m.grows_addLocal var) h
  | placeLabel name line hmethod hplaced =>
    exact retains_putType hmethod.blocks hmethod.method (OpenMethod.grows_placeLabel hplaced) h
  | @addInstruction _ _ m form operands implicit _ scope args line hmethod =>
    have hput := retains_putType hmethod.blocks hmethod.method
      (m.grows_addInstruction ⟨form.opcode, operands, line⟩ implicit) h
    exact hput.of_blocks rfl rfl

section Run

variable {start : ParseState} {before : List BranchFixes} {rounds n : Nat}

/-- What there is of a method after some rounds stays for all that
follow. -/
theorem retains_run (hstart : start.Coherent before)
    (herrors : (run set rounds start).log.errorCount
      = start.log.errorCount) {later : Nat} (hn : n ≤ later)
    (hlater : later ≤ rounds) (h : (run set n start).Retains full m) :
    (run set later start).Retains full m := by
  induction hn with
  | refl => exact h
  | @step later _ ih =>
    have hhere := ih (Nat.le_of_lt hlater)
    have hnested := (hstart.run (errorCount_run_of_le herrors (Nat.le_of_lt hlater))).nested
    rcases run_succ_cases hstart herrors hlater with
      hend | ⟨braces, read, htakes, heffect⟩
    · rw [hend]
      exact hhere.of_blocks rfl rfl
    · obtain ⟨_, _, -, rfl⟩ := htakes.moved
      exact heffect.retains hnested (hhere.of_blocks rfl rfl)

end Run

-- ==== instructions

/-- Whether an instruction of that method is read next. -/
structure AtInstruction (state : ParseState) (t : OpenType)
    (outer : List Block) (m : OpenMethod) : Prop
    extends state.InMethod t outer m where
  more : state.cursor.atEnd = false
  brace : state.cursor.peek? ≠ some '\x7d'
  dot : state.cursor.peek? ≠ some '.'
  label : state.cursor.atLabel = false

/-- What comes of trying the forms of a mnemonic on arguments that are
written here. -/
def choice (set : InstructionSet) (state : ParseState) (t : OpenType)
    (m : OpenMethod) (mnemonic : String) (args : List Argument) : Choice :=
  .ofForms (Parse.argumentContext (state.scope.snapshot (some t.full)).1
    state.log.file state.cursor.line m) args (set.candidates mnemonic args.length)

end ParseState

namespace Parse

open ParseState

variable {set : InstructionSet} {state next : ParseState} {t : OpenType}
  {outer : List Block} {m : OpenMethod}

/-- The mnemonic at the cursor and the arguments behind it. -/
def written? (set : InstructionSet) (cur : Cursor) :
    Option (String × List Argument) := match Scan.word.run cur with
  | .error _ _ => none
  | .ok mnemonic behind =>
    match (arguments set mnemonic).run behind with
    | .error _ _ => none
    | .ok args _ => some (mnemonic, args)

/-- An instruction that is read has a form that accepts its arguments,
and joins the open method as that form reads it. -/
theorem exists_accepted_of_instruction {a : Unit}
    (h : (instruction set t outer m).run state = .ok a next) :
    ∃ mnemonic args accepted, written? set state.cursor = some (mnemonic, args)
      ∧ (state.choice set t m mnemonic args).chosen = some accepted
      ∧ next.blocks = .type { t with method := some (m.addInstruction
        ⟨accepted.form.opcode, accepted.operands, state.cursor.line⟩
        accepted.implicit) } :: outer := by
  obtain ⟨_, _, hcur, h⟩ := run_bind_ok_iff.1 h
  cases hcur
  obtain ⟨mnemonic, _, hmnemonic, h⟩ := run_bind_ok_iff.1 h
  rw [run_scan] at hmnemonic
  split at hmnemonic
  case h_2 => cases hmnemonic
  rename_i word behind hword
  cases hmnemonic
  simp only at h
  split at h
  case isTrue => cases h
  obtain ⟨args, _, hargs, h⟩ := run_bind_ok_iff.1 h
  rw [run_scan] at hargs
  split at hargs
  case h_2 => cases hargs
  rename_i found after hfound
  cases hargs
  have hwritten : written? set state.cursor = some (mnemonic, args) := by
    unfold written?
    rw [hword]
    simp only
    rw [hfound]
  split at h
  case h_1 => cases h
  obtain ⟨_, _, hscope, h⟩ := run_bind_ok_iff.1 h
  cases hscope
  rw [run_get_bind] at h
  split at h
  case h_1 => cases h
  rename_i accepted hchosen
  refine ⟨mnemonic, args, accepted, hwritten, hchosen, ?_⟩
  split at h
  · rw [run_modify_bind] at h
    cases h
    rfl
  · cases h
    rfl

/-- Where an instruction is read next, a statement is one. -/
theorem run_statement (h : state.AtInstruction t outer m) :
    (statement set).run state = (instruction set t outer m).run state := by
  unfold statement
  rw [run_get_bind, if_neg h.brace, h.blocks]
  simp only
  rw [h.method]
  simp only
  rw [h.localsLine, Option.isSome_none, if_neg Bool.false_ne_true]
  show EStateM.run (if state.cursor.peek? = some '.' then _ else _) state = _
  rw [if_neg h.dot, h.label, if_neg Bool.false_ne_true]

end Parse

namespace ParseState

variable {set : InstructionSet} {state : ParseState} {t : OpenType}
  {outer : List Block} {m : OpenMethod}

/-- A round without an error that reads an instruction adds it to its
method. -/
theorem exists_accepted_of_advance (h : state.AtInstruction t outer m)
    (herrors : (advance set state).log.errorCount
      = state.log.errorCount) :
    ∃ mnemonic args accepted, Parse.written? set state.cursor = some (mnemonic, args)
      ∧ (state.choice set t m mnemonic args).chosen = some accepted
      ∧ (advance set state).blocks = .type { t with
        method := some (m.addInstruction
          ⟨accepted.form.opcode, accepted.operands, state.cursor.line⟩
          accepted.implicit) } :: outer := by
  have hrun := statement_of_advance (isSkipping_of_blocks h.blocks) herrors
  rw [Parse.run_statement h] at hrun
  exact Parse.exists_accepted_of_instruction hrun

end ParseState

-- ==== methods

namespace Method

variable {method aimed : Method} {place : Nat} {form : Form} {args : List Argument}

/-- Whether the instruction at a place is what that form reads from those
arguments, as far as variables go: it names those that are meant. -/
def ReadsAt (method : Method) (place : Nat) (form : Form) (args : List Argument) : Prop :=
  ∃ instruction, method.body.instructions[place]? = some instruction
    ∧ instruction.opcode = form.opcode
    ∧ form.NamesAll method.vars args instruction.operands

/-- A method that grew since an instruction was added still has it, and
the variables are where they were. -/
theorem readsAt_finish {scope : Scope} {file : String} {line : Nat}
    {m later : OpenMethod} {operands : List Operand} {implicit : List String}
    (hread : (form.read (Parse.argumentContext scope file line m)
      args).run [] = .ok operands implicit)
    (hgrows : (m.addInstruction ⟨form.opcode, operands, line⟩ implicit).Grows later) :
    later.finish.ReadsAt m.size form args := by
  refine ⟨⟨form.opcode, operands, line⟩, ?_, rfl, ?_⟩
  · obtain ⟨front, hfront⟩ := hgrows.instructions
    change front ++ _ :: m.instructions = _ at hfront
    show later.instructions.reverse[m.size]? = _
    rw [← hfront, m.size_eq, List.reverse_append, List.reverse_cons,
      List.append_assoc, ← List.length_reverse,
      List.getElem?_append_right (Nat.le_refl _), Nat.sub_self]
    rfl
  · obtain ⟨-, -, hnames⟩ := (Form.reads_of_read hread).names
    refine Form.NamesAll.mono hnames fun which => ?_
    cases which with
    | argument =>
      have hparams : m.method.params <+: later.method.params := hgrows.params ▸ List.prefix_rfl
      exact hparams.map _
    | locals => exact hgrows.locals.map _

theorem ReadsAt.aims (h : method.ReadsAt place form args)
    (haims : method.Aims aimed) : aimed.ReadsAt place form args := by
  obtain ⟨_, hplace, hopcode, hnames⟩ := h
  obtain ⟨_, hcode, rfl⟩ := haims
  have hsame := congrArg (·[place]?) hcode
  simp only [List.getElem?_map, hplace, Option.map_some, Option.map_eq_some_iff] at hsame
  obtain ⟨changed, hchanged, hunaimed⟩ := hsame
  injection hunaimed with hopcodes hoperands
  exact ⟨changed, hchanged, hopcodes.trans hopcode, hnames.of_unaimed hoperands⟩

theorem ReadsAt.mapReferences (h : method.ReadsAt place form args) (f : Reference → Reference) :
    (method.mapReferences f).ReadsAt place form args := by
  obtain ⟨instruction, hplace, hopcode, hnames⟩ := h
  refine ⟨instruction.mapReferences f, ?_, hopcode, ?_⟩
  · show (method.body.instructions.map _)[place]? = _
    rw [List.getElem?_map, hplace]
    rfl
  · refine (hnames.mapReference f).mono fun which => ?_
    have hsame : ((method.mapReferences f).vars which).map (·.name)
        = (method.vars which).map (·.name) := by
      cases which with
      | argument => exact List.map_map
      | locals => exact List.map_map
    exact hsame ▸ List.prefix_rfl

end Method

-- ==== programs

namespace Program

open ParseState

variable {program : Program} {set : InstructionSet} {source full : String}
  {log : Log} {fixes : List BranchFixes} {method : Method}

theorem entries_parse (h : ((ofSource program source log).toEnd set).blocks = []) :
    (program.parse set source log).program.entries
      = ((ofSource program source log).toEnd set).entries := by
  rw [parse_of_blocks h, ParseState.entries, h]
  exact (List.append_nil _).symm

/-- Where an instruction is read in a text without errors, some form
accepts its arguments, and the method that it is part of has it in the
end. -/
theorem exists_method_of_atInstruction (hlink : Linkable program.entries fixes)
    (hlisted : program.Listed)
    (herrors : (program.parse set source log).log.errorCount
      = log.errorCount) {n : Nat} {t : OpenType} {outer : List Block} {m : OpenMethod}
    (h : (run set n (ofSource program source log)).atStatement.AtInstruction t outer m) :
    let state := (run set n (ofSource program source log)).atStatement
    ∃ mnemonic args accepted method, Parse.written? set state.cursor = some (mnemonic, args)
      ∧ (state.choice set t m mnemonic args).chosen = some accepted
      ∧ accepted.form.args.length = args.length
      ∧ Has (program.parse set source log).program.entries t.full method
      ∧ method.name = m.method.name
      ∧ method.ReadsAt m.size accepted.form args := by
  have hstart := coherent_ofSource source log hlink hlisted
  obtain ⟨hread, hblocks⟩ := blocks_toEnd hlink hlisted herrors
  -- the round is one of those that come to the end of the text
  have hn : n < (ofSource program source log).cursor.rest.length + 1 := by
    apply Nat.lt_of_not_le
    intro hle
    have hrest := rest_run set (Nat.lt_of_succ_le hle)
    have htrivia := (run set n (ofSource program source log)).cursor.passes_skipTrivia.length_le
    rw [hrest] at htrivia
    have hnil := List.eq_nil_of_length_eq_zero (Nat.le_zero.1 htrivia)
    have hmore := h.more
    change (run set n (ofSource program source log)).cursor.skipTrivia.rest.isEmpty = false at hmore
    rw [hnil] at hmore
    cases hmore
  have hhere := errorCount_run_of_le hread (Nat.le_of_lt hn)
  have hnext := errorCount_run_of_le hread hn
  rw [run_succ_of_more set h.more] at hnext
  obtain ⟨mnemonic, args, accepted, hwritten, hchosen, hadded⟩ :=
    exists_accepted_of_advance h (hnext.trans hhere.symm)
  rw [← run_succ_of_more set h.more] at hadded
  have hend := retains_run hstart hread hn (Nat.le_refl _) (.opened hadded rfl rfl (.refl _))
  obtain ⟨-, haccepted⟩ := Parse.chosen_ofForms hchosen
  cases hend with
  | opened hopen =>
    change ((ofSource program source log).toEnd set).blocks = _ at hopen
    rw [hblocks] at hopen
    cases hopen
  | @closed later hhas hgrows =>
    refine ⟨mnemonic, args, accepted, later.finish, hwritten, hchosen,
      (Form.reads_of_read haccepted).names.1, ?_, hgrows.name,
      Method.readsAt_finish haccepted hgrows⟩
    rw [entries_parse hblocks]
    exact hhas

end Program

end StackAsm
