/-
Rounds of reading. A round passes a line of a block that is skipped,
reads a statement, or refuses one: then it reports an error and passes
the line the statement starts on (`advance_cases`). Every round leaves
less to read and never takes back an error. So a parse comes to the end
of its text, and if it reports no error then it is made of statements
that succeeded: what those preserve holds at its end (`run_invariant`).
-/
import StackAsm.Proofs.Parse.Refusal

namespace StackAsm

open Diagnostic

-- ==== faults

/-- A fault is reported as an error. -/
theorem ParseFault.isError_diagnostic (fault : ParseFault) : fault.diagnostic.isError = true := by
  obtain ⟨cause, line, _⟩ := fault
  cases cause with
  | arguments =>
    show (ParseCause.diagnostic _ line).isError = true
    unfold ParseCause.diagnostic
    simp only
    split <;> rfl
  | _ => rfl

theorem ScanFault.plain_message (fault : ScanFault) : Plain fault.message := by
  cases fault with
  | expected wanted found =>
    cases found with
    | none => exact plain_append _ (plain_append _ (by decide))
    | some =>
      exact plain_append _ (plain_append _ (plain_append _ (plain_append _ (by decide))))
  | unknownEscape => exact plain_append _ (plain_append _ (by decide))
  | _ => decide

/-- What is reported of a fault is not about fixes of branches. -/
theorem ParseFault.plain_diagnostic (fault : ParseFault) : Plain fault.diagnostic.message := by
  obtain ⟨cause, line, _⟩ := fault
  show Plain (cause.diagnostic line).message
  cases cause with
  | scan fault => exact plain_messageWith none fault.plain_message
  | modifier =>
    exact plain_messageWith _ (plain_append _ (plain_append _ (by decide)))
  | path fault =>
    cases fault with
    | empty | emptySegment => exact plain_messageWith _ (by decide)
  | duplicate =>
    exact plain_messageWith _ (plain_append _ (by decide))
  | arity =>
    exact plain_append _ (plain_append _ (plain_append _ (plain_append _ (by decide))))
  | arguments mnemonic =>
    have hmessage : Plain ("Invalid arguments for '" ++ mnemonic ++ "'") :=
      plain_append _ (plain_append _ (by decide))
    unfold ParseCause.diagnostic
    simp only
    split
    · exact plain_messageWith _ hmessage
    · exact hmessage
  | _ => exact plain_messageWith _ (by decide)

theorem Choice.plain_warning {choice : Choice} {line column : Nat}
    {warning : Diagnostic} (h : choice.warning? line column = some warning) :
    Plain warning.message := by
  unfold Choice.warning? at h
  split at h
  · cases h
    exact plain_messageWith _ (by decide)
  · cases h

namespace ParseState

variable {set : InstructionSet} {text : List Char} {state next : ParseState} {braces : List Brace}

-- ==== closing

/-- A closing brace leaves the text, the log and what was declared. -/
theorem closeBlock_eq (state : ParseState) : state.closeBlock = { state with
      program := state.closeBlock.program
      scope := state.closeBlock.scope
      blocks := state.closeBlock.blocks
      output := state.closeBlock.output } := by
  unfold closeBlock
  split
  · rfl
  · rfl
  · rfl
  · split
    · unfold closeType
      split <;> rfl
    · split <;> rfl

theorem cursor_closeBlock (state : ParseState) : state.closeBlock.cursor = state.cursor := by
  rw [closeBlock_eq]

theorem log_closeBlock (state : ParseState) : state.closeBlock.log = state.log := by
  rw [closeBlock_eq]

theorem log_followBraces (line : Nat) (braces : List Brace) (state : ParseState) :
    (braces.foldl (followBrace line) state).log = state.log := by
  induction braces generalizing state with
  | nil => rfl
  | cons brace braces ih =>
    rw [List.foldl_cons, ih]
    cases brace with
    | opening => rfl
    | closing => exact log_closeBlock state

theorem log_skipLine (state : ParseState) : state.skipLine.log = state.log := log_followBraces ..

-- ==== turns

theorem Effect.cursor (h : Effect set text state braces next) : next.cursor = state.cursor := by
  cases h with
  | close => exact cursor_closeBlock state
  | _ => rfl

theorem Effect.adds (h : Effect set text state braces next) :
    Log.Adds Plain state.log next.log := by
  cases h with
  | close =>
    rw [log_closeBlock]
    exact Log.adds_of_reported rfl rfl
  | addInstruction scope args line hmethod hform hread hlog =>
    rcases hlog with rfl | ⟨_, _, _, hwarning, rfl⟩
    · exact Log.adds_of_reported rfl rfl
    · exact Log.adds_report _ (Choice.plain_warning hwarning)
  | _ => exact Log.adds_of_reported rfl rfl

theorem Turn.passes (h : Turn set state braces next) :
    Passes braces state.cursor.rest next.cursor.rest := by
  obtain ⟨_, htakes, heffect⟩ := h
  rw [heffect.cursor]
  exact htakes.passes

theorem Turn.shorter (h : Turn set state braces next) :
    next.cursor.rest.length < state.cursor.rest.length := by
  obtain ⟨_, htakes, heffect⟩ := h
  rw [heffect.cursor]
  exact htakes.shorter

theorem Turn.adds (h : Turn set state braces next) : Log.Adds Plain state.log next.log := by
  obtain ⟨_, htakes, heffect⟩ := h
  rw [← htakes.moved.log]
  exact heffect.adds

-- ==== rounds

/-- The state in which a refused line is passed over. -/
def refused (state middle : ParseState) (fault : ParseFault) : ParseState :=
  { middle.report fault.diagnostic with cursor := state.cursor }

/-- What one round does. -/
theorem advance_cases (set : InstructionSet) (state : ParseState) :
    (state.isSkipping = true ∧ advance set state = state.skipLine)
      ∨ (state.isSkipping = false
        ∧ ∃ braces, Turn set state braces (advance set state))
      ∨ (∃ middle fault, state.Stays middle
        ∧ advance set state = (refused state middle fault).skipLine) := by
  unfold advance
  cases hskip : state.isSkipping with
  | true => exact .inl ⟨rfl, rfl⟩
  | false =>
    cases hrun : (Parse.statement set).run state with
    | ok =>
      exact .inr (.inl ⟨rfl, Parse.turn_of_statement hskip hrun⟩)
    | error fault middle =>
      exact .inr (.inr ⟨middle, fault, Parse.stays_of_statement_error hrun, rfl⟩)

theorem adds_advance (set : InstructionSet) (state : ParseState) :
    Log.Adds Plain state.log (advance set state).log := by
  rcases advance_cases set state with ⟨-, h⟩ | ⟨-, _, h⟩
    | ⟨_, fault, hstays, h⟩
  · rw [h, log_skipLine]
    exact Log.adds_of_reported rfl rfl
  · exact h.adds
  · rw [h, log_skipLine, ← hstays.level.log]
    exact Log.adds_report _ fault.plain_diagnostic

/-- A round leaves less to read. -/
theorem length_advance_lt (set : InstructionSet) (h : state.cursor.rest ≠ []) :
    (advance set state).cursor.rest.length < state.cursor.rest.length := by
  rcases advance_cases set state with ⟨-, hnext⟩ | ⟨-, _, hnext⟩
    | ⟨_, _, -, hnext⟩
  · rw [hnext]
    exact Cursor.length_restOfLine_lt h
  · exact hnext.shorter
  · rw [hnext]
    exact Cursor.length_restOfLine_lt h

/-- A round without an error is a statement, unless a block is skipped. -/
theorem turn_of_advance (hskip : state.isSkipping = false)
    (h : (advance set state).log.errorCount = state.log.errorCount) :
    ∃ braces, Turn set state braces (advance set state) := by
  rcases advance_cases set state with ⟨hskips, -⟩ | ⟨-, hturn⟩
    | ⟨middle, fault, hstays, hnext⟩
  · rw [hskips] at hskip
    cases hskip
  · exact hturn
  · rw [hnext, log_skipLine, ← hstays.level.log] at h
    have hlt := Log.errorCount_lt_report middle.log fault.isError_diagnostic
    exact absurd h (Nat.ne_of_gt hlt)

-- ==== runs

/-- The state behind blanks and comments, where a statement is read. -/
def atStatement (state : ParseState) : ParseState :=
  { state with
    cursor := state.cursor.skipTrivia
    log := state.log.atLine state.cursor.skipTrivia.line }

theorem run_of_end (set : InstructionSet) (fuel : Nat) (h : state.cursor.skipTrivia.atEnd = true) :
    run set (fuel + 1) state = { state with cursor := state.cursor.skipTrivia } := by
  exact if_pos h

theorem run_of_more (set : InstructionSet) (fuel : Nat)
    (h : state.cursor.skipTrivia.atEnd = false) :
    run set (fuel + 1) state = run set fuel (advance set state.atStatement) := by
  exact if_neg (Bool.eq_false_iff.1 h)

/-- What blanks and every round preserve holds however many rounds are
read. -/
theorem run_induction {Inv : ParseState → Prop}
    (htrivia : ∀ (state : ParseState) (line : Nat), Inv state →
      Inv { state with
        cursor := state.cursor.skipTrivia
        log := state.log.atLine line })
    (hadvance : ∀ state, Inv state → Inv (advance set state)) (fuel : Nat)
    (hinv : Inv state) : Inv (run set fuel state) := by
  induction fuel generalizing state with
  | zero => exact hinv
  | succ fuel ih =>
    cases hend : state.cursor.skipTrivia.atEnd with
    | true =>
      rw [run_of_end set fuel hend]
      exact htrivia state state.log.line hinv
    | false =>
      rw [run_of_more set fuel hend]
      exact ih (hadvance _ (htrivia state _ hinv))

/-- The last of some rounds is a round of its own. -/
theorem run_succ (set : InstructionSet) (rounds : Nat) :
    run set (rounds + 1) state = run set 1 (run set rounds state) := by
  induction rounds generalizing state with
  | zero => rfl
  | succ rounds ih =>
    cases hend : state.cursor.skipTrivia.atEnd with
    | true =>
      -- at the end of the text a further round finds nothing to skip
      have hsame := Cursor.skipTrivia_of_atEnd hend
      rw [run_of_end set _ hend, run_of_end set _ hend, run_of_end set 0 (by rw [hsame, hend])]
      simp only [hsame]
    | false =>
      rw [run_of_more set _ hend, run_of_more set _ hend]
      exact ih

theorem run_succ_of_end (set : InstructionSet) {rounds : Nat}
    (h : (run set rounds state).cursor.skipTrivia.atEnd = true) :
    run set (rounds + 1) state = { run set rounds state with
      cursor := (run set rounds state).cursor.skipTrivia } :=
  (run_succ set rounds).trans (run_of_end set 0 h)

theorem run_succ_of_more (set : InstructionSet) {rounds : Nat}
    (h : (run set rounds state).cursor.skipTrivia.atEnd = false) :
    run set (rounds + 1) state = advance set (run set rounds state).atStatement :=
  (run_succ set rounds).trans (run_of_more set 0 h)

theorem adds_run (set : InstructionSet) (fuel : Nat) (state : ParseState) :
    Log.Adds Plain state.log (run set fuel state).log := by
  refine @run_induction set state (fun later => Log.Adds Plain state.log later.log) ?_ ?_ fuel ?_
  · exact fun _ _ h => h.trans (Log.adds_of_reported rfl rfl)
  · exact fun later h => h.trans (adds_advance set later)
  · exact Log.adds_of_reported rfl rfl

/-- Reading comes to the end of the text. -/
theorem rest_run (set : InstructionSet) {fuel : Nat} (h : state.cursor.rest.length < fuel) :
    (run set fuel state).cursor.rest = [] := by
  induction fuel generalizing state with
  | zero => exact absurd h (Nat.not_lt_zero _)
  | succ fuel ih =>
    cases hend : state.cursor.skipTrivia.atEnd with
    | true =>
      rw [run_of_end set fuel hend]
      exact List.isEmpty_iff.1 hend
    | false =>
      rw [run_of_more set fuel hend]
      apply ih
      have hne : state.atStatement.cursor.rest ≠ [] := by
        intro hnil
        change state.cursor.skipTrivia.rest = [] at hnil
        rw [Cursor.atEnd, hnil] at hend
        cases hend
      have hlt := length_advance_lt set hne
      have hle := state.cursor.passes_skipTrivia.length_le
      exact Nat.lt_of_lt_of_le hlt (Nat.le_trans hle (Nat.le_of_lt_succ h))

/-- What every statement that succeeds preserves holds at the end of a
run without errors. -/
theorem run_invariant {Inv : ParseState → Prop}
    (htrivia : ∀ (state : ParseState) (line : Nat), Inv state →
      Inv { state with
        cursor := state.cursor.skipTrivia
        log := state.log.atLine line })
    (hskip : ∀ state, Inv state → state.isSkipping = false)
    (hturn : ∀ state braces next, Inv state →
      Turn set state braces next → Inv next) {fuel : Nat} (hinv : Inv state)
    (herrors : (run set fuel state).log.errorCount
      = state.log.errorCount) : Inv (run set fuel state) := by
  induction fuel generalizing state with
  | zero => exact hinv
  | succ fuel ih =>
    cases hend : state.cursor.skipTrivia.atEnd with
    | true =>
      rw [run_of_end set fuel hend]
      exact htrivia state state.log.line hinv
    | false =>
      rw [run_of_more set fuel hend] at herrors ⊢
      have hstart : Inv state.atStatement := htrivia state _ hinv
      have hlow := (adds_advance set state.atStatement).errorCount_le
      have hhigh := (adds_run set fuel (advance set state.atStatement)).errorCount_le
      rw [herrors] at hhigh
      have hadvance := Nat.le_antisymm hhigh hlow
      obtain ⟨braces, hnext⟩ := turn_of_advance (hskip _ hstart) hadvance
      exact ih (hturn _ braces _ hstart hnext) (herrors.trans hadvance.symm)

end ParseState

end StackAsm
