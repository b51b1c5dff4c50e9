/-
Warnings as errors, while a file is read. Whether the log takes warnings
as errors makes no difference to reading: with a log that does, the same
is read and the same is reported, every warning as an error
(`Program.parse_strict`). The log is something that no step sees, so most
of this is `Parse.Blind`; only opening a type looks at the program, which
is the same.

There is one warning, about an instruction that two forms accept. With an
instruction set where this cannot be, reading adds errors only
(`Program.addsErrors_parse`).
-/
import StackAsm.Proofs.Parse.Nesting
import StackAsm.Proofs.Parse.Overloads

namespace StackAsm

-- ==== logs

theorem Diagnostic.isError_escalate (d : Diagnostic) : d.escalate.isError = true := rfl

theorem Diagnostic.escalate_of_isError {d : Diagnostic}
    (h : d.isError = true) : d.escalate = d := by
  obtain ⟨severity, _, _, _, _, _, _, _, _⟩ := d
  cases severity with
  | warning => cases h
  | error => rfl

namespace Log

variable {log middle next : Log}

/-- The log if it had taken warnings as errors all along. -/
def strict (log : Log) : Log :=
  { log with
    reported := log.reported.map Diagnostic.escalate
    warningsAsErrors := true }

/-- A log that takes warnings as errors records every diagnostic as the
error it would have been without. -/
theorem recorded_strict (log : Log) (d : Diagnostic) :
    log.strict.recorded d = (log.recorded d).escalate := by
  obtain ⟨_, _, _, warningsAsErrors⟩ := log
  cases warningsAsErrors with
  | true => rfl
  | false => rfl

theorem report_strict (log : Log) (d : Diagnostic) :
    log.strict.report d = (log.report d).strict := by
  unfold report
  rw [recorded_strict]
  rfl

theorem reportAll_strict (log : Log) (ds : List Diagnostic) :
    log.strict.reportAll ds = (log.reportAll ds).strict := by
  induction ds generalizing log with
  | nil => rfl
  | cons d rest ih =>
    show (log.strict.report d).reportAll rest = _
    rw [report_strict]
    exact ih (log.report d)

/-- Whether a log goes on from another one with errors only. -/
def AddsErrors (log next : Log) : Prop :=
  ∃ new, next.reported = new ++ log.reported
    ∧ ∀ d ∈ new, d.isError = true

theorem addsErrors_of_reported (h : next.reported = log.reported) :
    log.AddsErrors next := ⟨[], h, List.forall_mem_nil _⟩

theorem AddsErrors.trans (hfirst : log.AddsErrors middle)
    (hsecond : middle.AddsErrors next) : log.AddsErrors next := by
  obtain ⟨new, hnew, herrors⟩ := hfirst
  obtain ⟨newer, hnewer, herrors'⟩ := hsecond
  refine ⟨newer ++ new, ?_, List.forall_mem_append.2 ⟨herrors', herrors⟩⟩
  rw [hnewer, hnew, List.append_assoc]

theorem addsErrors_report (log : Log) {d : Diagnostic}
    (h : d.isError = true) : log.AddsErrors (log.report d) :=
  ⟨[log.recorded d], rfl, List.forall_mem_singleton.2 (isError_recorded log h)⟩

theorem addsErrors_reportAll (log : Log) {ds : List Diagnostic}
    (h : ∀ d ∈ ds, d.isError = true) : log.AddsErrors (log.reportAll ds) := by
  induction ds generalizing log with
  | nil => exact addsErrors_of_reported rfl
  | cons d rest ih =>
    rw [List.forall_mem_cons] at h
    exact (log.addsErrors_report h.1).trans (ih (log.report d) h.2)

end Log

/-- The same program, and a log that takes warnings as errors. -/
def strictSwap : Swap where
  program := id
  log := Log.strict
  file _ := rfl
  report := Log.report_strict

-- ==== statements

namespace ParseState

/-- The same place of the same file, with warnings taken as errors. -/
def strict (state : ParseState) : ParseState := state.swap strictSwap

theorem closeBlock_strict (state : ParseState) :
    state.strict.closeBlock = state.closeBlock.strict := by
  obtain ⟨_, _, _, _, blocks, _, _, _⟩ := state
  rcases blocks with _ | ⟨block, outer⟩
  · rfl
  cases block with
  | space => rfl
  | skipped => rfl
  | type t =>
    obtain ⟨_, _, space, method⟩ := t
    cases method with
    | none =>
      rcases outer with _ | ⟨block, outer⟩
      · rfl
      cases block with
      | type => rfl
      | _ => rfl
    | some =>
      unfold closeBlock strict swap
      simp only
      split <;> rfl

end ParseState

namespace Parse

open ParseState

theorem follows_openType (name : String) (attrs : Attributes)
    (line : Nat) : Follows strictSwap (openType name attrs line) := by
  refine ⟨fun state => ?_⟩
  unfold openType
  rw [run_get_bind, run_get_bind]
  simp only
  show EStateM.run (if state.declared.contains (fullName state name)
      || (state.program.find? (fullName state name)).isSome then _ else _) _
    = _
  split <;> rfl

/-- A statement is the same if warnings are taken as errors. -/
theorem carries_follows : CarriesAll (Follows strictSwap) where
  settled hstep := hstep.blind.follows _
  bind hstep hf := (hstep.blind.follows _).bind hf
  blind hstep := hstep.follows _
  look hsame hf := follows_get_bind (hsame _) hf
  openType := follows_openType
  external _ := follows_modify fun _ => rfl
  closeBlock := follows_modify closeBlock_strict

end Parse

-- ==== runs

namespace ParseState

variable {set : InstructionSet}

theorem skipLine_strict (state : ParseState) : state.strict.skipLine = state.skipLine.strict := by
  have hbraces : ∀ (line : Nat) (braces : List Brace) (state : ParseState),
      braces.foldl (followBrace line) state.strict
        = (braces.foldl (followBrace line) state).strict := by
    intro line braces
    induction braces with
    | nil => exact fun _ => rfl
    | cons brace braces ih =>
      intro state
      cases brace with
      | opening => exact ih (followBrace line state .opening)
      | closing =>
        show braces.foldl _ state.strict.closeBlock = _
        rw [closeBlock_strict]
        exact ih state.closeBlock
  exact congrArg (fun later : ParseState =>
      { later with cursor := state.cursor.restOfLine.2 })
    (hbraces state.cursor.line state.cursor.restOfLine.1 state)

theorem advance_strict (set : InstructionSet) (state : ParseState) :
    advance set state.strict = (advance set state).strict := by
  have hskip : state.strict.isSkipping = state.isSkipping := rfl
  unfold advance
  rw [hskip]
  split
  · exact state.skipLine_strict
  · have hstatement := (Parse.carries_follows.statement set).swap state
    rw [strict, hstatement]
    cases (Parse.statement set).run state with
    | ok => rfl
    | error fault next =>
      show ParseState.skipLine
        { (next.swap strictSwap).report fault.diagnostic with
          cursor := state.cursor } = _
      rw [report_swap]
      exact skipLine_strict { next.report fault.diagnostic with cursor := state.cursor }

theorem run_strict (set : InstructionSet) (fuel : Nat) (state : ParseState) :
    run set fuel state.strict = (run set fuel state).strict := by
  induction fuel generalizing state with
  | zero => rfl
  | succ fuel ih =>
    cases hend : state.cursor.skipTrivia.atEnd with
    | true =>
      rw [run_of_end set fuel hend, @run_of_end state.strict set fuel hend]
      rfl
    | false =>
      rw [run_of_more set fuel hend, @run_of_more state.strict set fuel hend]
      have hstart : state.strict.atStatement = state.atStatement.strict := rfl
      rw [hstart, advance_strict]
      exact ih _

theorem closeUnclosed_strict (state : ParseState) :
    state.strict.closeUnclosed = state.closeUnclosed.strict := by
  have hblocks : state.strict.blocks = state.blocks := rfl
  unfold closeUnclosed
  rw [hblocks]
  split
  · rfl
  · split
    · exact state.closeBlock_strict
    · rw [strict, report_swap]
      exact closeBlock_strict (state.report _)

theorem closeAll_strict (state : ParseState) : state.strict.closeAll = state.closeAll.strict := by
  have hdepth : state.strict.depth = state.depth := rfl
  unfold closeAll
  rw [hdepth]
  induction state.depth with
  | zero => rfl
  | succ count ih =>
    show closeUnclosed (Nat.repeat closeUnclosed count state.strict) = _
    rw [ih, closeUnclosed_strict]
    rfl

end ParseState

/-- Taking warnings as errors changes nothing in what is read, and of what
is reported only the severity. -/
theorem Program.parse_strict (program : Program) (set : InstructionSet)
    (source : String) (log : Log) :
    program.parse set source log.strict
      = { program.parse set source log with
          log := (program.parse set source log).log.strict } := by
  have hend : (ParseState.ofSource program source log.strict).toEnd set
      = ((ParseState.ofSource program source log).toEnd set).strict :=
    ParseState.run_strict set _ (.ofSource program source log)
  unfold parse
  rw [hend, ParseState.closeAll_strict]
  rfl

-- ==== errors

/-- What is not ambiguous gives no warning. -/
theorem Choice.warning?_of_also {choice : Choice} (h : choice.also = [])
    (line column : Nat) : choice.warning? line column = none := by
  unfold warning?
  rw [h]
  split
  · rename_i hsome
    cases hsome
  · rfl

namespace ParseState

variable {set : InstructionSet} {state next : ParseState} {text : List Char} {braces : List Brace}
  (hset : set.Unambiguous)
include hset

/-- One statement adds no warning. -/
theorem Effect.addsErrors (h : Effect set text state braces next) :
    state.log.AddsErrors next.log := by
  cases h with
  | close =>
    rw [log_closeBlock]
    exact Log.addsErrors_of_reported rfl
  | addInstruction scope args line hmethod hform hread hlog =>
    rcases hlog with rfl | ⟨mnemonic, _, _, hwarning, rfl⟩
    · exact Log.addsErrors_of_reported rfl
    · rw [Choice.warning?_of_also (hset _ mnemonic args)] at hwarning
      cases hwarning
  | _ => exact Log.addsErrors_of_reported rfl

theorem addsErrors_advance (state : ParseState) : state.log.AddsErrors (advance set state).log := by
  rcases advance_cases set state with ⟨-, hnext⟩
    | ⟨-, _, _, htakes, heffect⟩ | ⟨_, fault, hstays, hnext⟩
  · rw [hnext, log_skipLine]
    exact Log.addsErrors_of_reported rfl
  · rw [← htakes.moved.log]
    exact heffect.addsErrors hset
  · rw [hnext, log_skipLine, ← hstays.level.log]
    exact Log.addsErrors_report _ fault.isError_diagnostic

/-- However many rounds are read, they add no warning. -/
theorem addsErrors_run (fuel : Nat) (state : ParseState) :
    state.log.AddsErrors (run set fuel state).log := by
  refine @run_induction set state (fun later => state.log.AddsErrors later.log) ?_ ?_ fuel ?_
  · exact fun _ _ h => h
  · exact fun later h => h.trans (addsErrors_advance hset later)
  · exact Log.addsErrors_of_reported rfl

omit hset

theorem addsErrors_closeUnclosed (state : ParseState) :
    state.log.AddsErrors state.closeUnclosed.log := by
  unfold closeUnclosed
  split
  · exact Log.addsErrors_of_reported rfl
  · split
    · rw [log_closeBlock]
      exact Log.addsErrors_of_reported rfl
    · rw [log_closeBlock]
      exact Log.addsErrors_report _ rfl

theorem addsErrors_closeAll (state : ParseState) : state.log.AddsErrors state.closeAll.log := by
  unfold closeAll
  induction state.depth with
  | zero => exact Log.addsErrors_of_reported rfl
  | succ count ih => exact ih.trans (addsErrors_closeUnclosed _)

end ParseState

/-- Reading adds errors only, unless two forms can accept the same
arguments. -/
theorem Program.addsErrors_parse {set : InstructionSet}
    (hset : set.Unambiguous) (program : Program) (source : String)
    (log : Log) : log.AddsErrors (program.parse set source log).log :=
  (ParseState.addsErrors_run hset _ (.ofSource program source log)).trans
    (ParseState.addsErrors_closeAll _)

end StackAsm
