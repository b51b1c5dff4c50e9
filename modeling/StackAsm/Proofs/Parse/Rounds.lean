/-
What a round costs and what a refusal leaves behind. A refused statement
is as if it had not been read, with one exception: a block of locals
counts as seen from its word on, even if the brace is missing
(`moved_of_refused_iff`). Every round passes at least one character, so
there are at most as many rounds as characters, and a round that refuses
its statement adds one error (`Program.rounds_advance`).
-/
import Mathlib.Data.Nat.Find
import StackAsm.Proofs.Parse.Nesting

namespace StackAsm

namespace ParseState

/-- Whether the locals of the open method were announced. -/
def localsSeen? (state : ParseState) : Option Bool := match state.blocks with
  | .type t :: _ => t.method.map (·.localsSeen)
  | _ => none

variable {state next : ParseState}

theorem Moved.localsSeen?_eq (h : state.Moved next) : next.localsSeen? = state.localsSeen? := by
  rw [localsSeen?, h.blocks, localsSeen?]

theorem LacksBrace.localsSeen?_eq {t : OpenType} {outer : List Block}
    {m : OpenMethod} (h : state.LacksBrace t outer m) :
    state.localsSeen? = some false := by
  rw [localsSeen?, h.blocks]
  simp only [h.method, Option.map_some, h.unseen]

end ParseState

namespace Parse

open ParseState

variable {set : InstructionSet} {state next : ParseState}
  {fault : ParseFault} {t : OpenType} {outer : List Block} {m : OpenMethod}

theorem run_cursor (state : ParseState) : cursor.run state = .ok state.cursor state := rfl

/-- A block of locals that lacks its brace is announced, and refused. -/
theorem moved_of_localsBlock_error (hlacks : state.LacksBrace t outer m)
    (h : (localsBlock t outer m).run state = .error fault next) :
    (state.announceLocals t outer m).Moved next := by
  obtain ⟨cursor, hword, -⟩ := hlacks.word
  obtain ⟨a, dot, hdot, hword⟩ := run_bind_ok_iff.1 hword
  have hfirst : (scan (Scan.expect '.')).run state = .ok a { state with cursor := dot } := by
    rw [run_scan, hdot]
  have hsecond : (scan Scan.word).run { state with cursor := dot }
      = .ok "locals" { state with cursor } := by
    rw [run_scan, hword]
  rw [localsBlock, run_bind_of_ok (run_cursor state),
    run_bind_of_ok hfirst, run_bind_of_ok hsecond, if_neg (not_not_intro rfl),
    if_neg (Bool.eq_false_iff.1 hlacks.unseen), if_pos (List.isEmpty_iff.2 hlacks.empty), putMethod,
    run_modify_bind] at h
  rcases run_bind_error_iff.1 h with h | ⟨_, _, -, h⟩
  · exact .trans ⟨cursor, _, .inl rfl, rfl⟩ (moved_of_scan_error h)
  · cases h

/-- Where a first block of locals lacks its brace, that block is read. -/
theorem run_statement_of_lacksBrace (hlacks : state.LacksBrace t outer m) :
    (statement set).run state = (localsBlock t outer m).run state := by
  rw [statement, run_get_bind]
  simp only [hlacks.dot, hlacks.blocks, hlacks.method, hlacks.localsLine]
  rw [if_neg (by decide), if_neg (by decide), methodStatement,
    run_bind_of_ok (run_cursor state), if_pos hlacks.dot]

/-- A refused statement is as if it had not been read, unless it is a
first block of locals that lacks its brace: this one is announced, and
nothing else changes. -/
theorem moved_of_refused_iff (h : (statement set).run state = .error fault next) :
    (state.Moved next ↔ ∀ t outer m, ¬ state.LacksBrace t outer m)
      ∧ ∀ t outer m, state.LacksBrace t outer m →
        (state.announceLocals t outer m).Moved next := by
  have hannounced : ∀ t outer m, state.LacksBrace t outer m →
      (state.announceLocals t outer m).Moved next := by
    intro t outer m hlacks
    rw [run_statement_of_lacksBrace hlacks] at h
    exact moved_of_localsBlock_error hlacks h
  refine ⟨⟨?_, ?_⟩, hannounced⟩
  · -- the block did not count as seen before
    intro hmoved t outer m hlacks
    have hseen : next.localsSeen? = some true := (hannounced t outer m hlacks).localsSeen?_eq
    rw [hmoved.localsSeen?_eq, hlacks.localsSeen?_eq] at hseen
    cases hseen
  · intro hnone
    rcases stays_of_statement_error h with hmoved
      | ⟨t, outer, m, hlacks, -⟩
    · exact hmoved
    · exact absurd hlacks (hnone t outer m)

end Parse

/-- Locals without a brace, and then the block of locals. -/
def Sample.unbraced : String :=
  ".type T \x7b\n.method m() \x7b\n.locals a\n.locals \x7b a: i32 \x7d\n\x7d\n\x7d"

/-- The state of the sample after some rounds, before a statement. -/
def Sample.unbracedAt (rounds : Nat) : ParseState :=
  ((ParseState.ofSource {} unbraced {}).run .standard rounds).atStatement

/-- Whether the next statement of the sample succeeds, and whether locals
count as announced behind it. -/
def Sample.unbracedBehind (rounds : Nat) : Bool × Option Bool :=
  match (Parse.statement .standard).run (unbracedAt rounds) with
  | .ok _ next => (true, next.localsSeen?)
  | .error _ next => (false, next.localsSeen?)

theorem Sample.exists_refusal_of_unbraced {rounds : Nat}
    {seen : Option Bool} (h : unbracedBehind rounds = (false, seen)) :
    ∃ fault next, (Parse.statement .standard).run (unbracedAt rounds)
        = .error fault next ∧ next.localsSeen? = seen := by
  unfold unbracedBehind at h
  split at h
  · cases h
  · rename_i fault next hrun
    cases h
    exact ⟨fault, next, hrun, rfl⟩

theorem Sample.read_unbraced :
    (unbracedAt 2).localsSeen? = some false ∧ unbracedBehind 2 = (false, some true)
      ∧ (unbracedAt 3).localsSeen? = some true ∧ unbracedBehind 3 = (false, some true)
      ∧ (({} : Program).parse .standard unbraced {}).log.errorCount = 2 := by
  decide +kernel

/-- The block of locals is refused, and leaves the state as it was. -/
theorem Sample.moved_of_refused_iff_unbraced :
    (unbracedAt 3).localsSeen? = some true
      ∧ ∃ fault next, (Parse.statement .standard).run (unbracedAt 3)
          = .error fault next ∧ (unbracedAt 3).Moved next := by
  obtain ⟨-, -, hseen, hbehind, -⟩ := read_unbraced
  obtain ⟨fault, next, hrun, -⟩ := exists_refusal_of_unbraced hbehind
  refine ⟨hseen, fault, next, hrun, (Parse.moved_of_refused_iff hrun).1.2 ?_⟩
  intro t outer m hlacks
  rw [hlacks.localsSeen?_eq] at hseen
  cases hseen

/-- Locals that lack their brace are refused, and yet count as seen: that
is why a second error is reported in the sample. -/
theorem Sample.not_moved_unbraced :
    (unbracedAt 2).localsSeen? = some false
      ∧ (∃ fault next, (Parse.statement .standard).run (unbracedAt 2)
          = .error fault next ∧ next.localsSeen? = some true
            ∧ ¬ (unbracedAt 2).Moved next)
      ∧ (({} : Program).parse .standard unbraced {}).log.errorCount
        = 2 := by
  obtain ⟨hseen, hbehind, -, -, herrors⟩ := read_unbraced
  obtain ⟨fault, next, hrun, hnext⟩ := exists_refusal_of_unbraced hbehind
  refine ⟨hseen, ⟨fault, next, hrun, hnext, ?_⟩, herrors⟩
  intro hmoved
  rw [hmoved.localsSeen?_eq, hseen] at hnext
  cases hnext

namespace ParseState

variable {set : InstructionSet} {state : ParseState}

/-- There is something to pass where the text is not at its end. -/
theorem rest_ne_nil_of_more (h : state.cursor.skipTrivia.atEnd = false) :
    state.atStatement.cursor.rest ≠ [] := by
  intro hnil
  rw [Cursor.atEnd, show state.cursor.skipTrivia.rest = [] from hnil] at h
  cases h

/-- A round passes a part of the text that is not empty. -/
theorem exists_passed_of_advance (set : InstructionSet) (h : state.cursor.rest ≠ []) :
    ∃ passed, passed ≠ [] ∧ state.cursor.rest = passed ++ (advance set state).cursor.rest := by
  have hlt := length_advance_lt set h
  obtain ⟨_, ⟨passed, hpassed, -⟩, -⟩ := follows_advance set state
  refine ⟨passed, ?_, hpassed⟩
  rintro rfl
  rw [← List.nil_append (advance set state).cursor.rest, ← hpassed] at hlt
  exact absurd hlt (Nat.lt_irrefl _)

/-- A round that refuses its statement adds one error. -/
theorem log_advance_of_error (hskip : state.isSkipping = false)
    {fault : ParseFault} {middle : ParseState}
    (h : (Parse.statement set).run state = .error fault middle) :
    (advance set state).log = state.log.report fault.diagnostic
      ∧ (advance set state).log.errorCount = state.log.errorCount + 1 := by
  have hlog : (advance set state).log = state.log.report fault.diagnostic := by
    rw [advance, hskip, if_neg Bool.false_ne_true, h, log_skipLine]
    rw [← (Parse.stays_of_statement_error h).level.log]
    rfl
  refine ⟨hlog, ?_⟩
  rw [hlog, Log.errorCount_report, if_pos (Log.isError_recorded _ fault.isError_diagnostic)]

/-- At the end of the text no round changes anything. -/
theorem run_of_rounds {rounds : Nat} (h : (run set rounds state).cursor.skipTrivia.atEnd = true)
    (more : Nat) :
    run set (rounds + 1 + more) state = { run set rounds state with
      cursor := (run set rounds state).cursor.skipTrivia } := by
  induction more with
  | zero => exact run_succ_of_end set h
  | succ more ih =>
    have hend : (run set (rounds + 1 + more) state).cursor.skipTrivia
        = (run set rounds state).cursor.skipTrivia := by
      rw [ih]
      exact Cursor.skipTrivia_of_atEnd h
    rw [← Nat.add_assoc, run_succ_of_end set (by rwa [hend]), hend, ih]

/-- As long as there is more to read, every round has cost a
character. -/
theorem rounds_le_of_more {rounds : Nat}
    (h : ∀ n < rounds, (run set n state).cursor.skipTrivia.atEnd = false) :
    (run set rounds state).cursor.rest.length + rounds ≤ state.cursor.rest.length := by
  induction rounds with
  | zero => exact Nat.le_refl _
  | succ rounds ih =>
    have hmore := h rounds (Nat.lt_succ_self _)
    have hle := ih fun n hn => h n (Nat.lt_succ_of_lt hn)
    have hlt := length_advance_lt set (rest_ne_nil_of_more hmore)
    have htrivia := (run set rounds state).cursor.passes_skipTrivia.length_le
    rw [run_succ_of_more set hmore]
    change _ < (run set rounds state).cursor.skipTrivia.rest.length at hlt
    omega

/-- Reading ends after at most as many rounds as there are characters, and
no earlier. -/
theorem exists_rounds (set : InstructionSet) (state : ParseState) :
    ∃ rounds ≤ state.cursor.rest.length,
      (∀ n, (run set n state).cursor.skipTrivia.atEnd = false ↔ n < rounds)
      ∧ ∀ n, rounds < n → run set n state = { run set rounds state with
          cursor := (run set rounds state).cursor.skipTrivia } := by
  classical
  have hends : ∃ n, (run set n state).cursor.skipTrivia.atEnd = true := by
    refine ⟨state.cursor.rest.length + 1, ?_⟩
    have hle := (run set (state.cursor.rest.length + 1) state).cursor.passes_skipTrivia.length_le
    rw [rest_run set (Nat.lt_succ_self _)] at hle
    exact List.isEmpty_iff.2 (List.length_eq_zero_iff.1 (Nat.le_zero.1 hle))
  obtain ⟨rounds, hend, hmin⟩ : ∃ rounds, (run set rounds state).cursor.skipTrivia.atEnd = true
        ∧ ∀ n < rounds, (run set n state).cursor.skipTrivia.atEnd = false :=
    ⟨Nat.find hends, Nat.find_spec hends, fun _ hn =>
      Bool.eq_false_iff.2 (Nat.find_min hends hn)⟩
  have hbehind : ∀ n, rounds < n → run set n state
      = { run set rounds state with
          cursor := (run set rounds state).cursor.skipTrivia } := by
    intro n hn
    obtain ⟨more, rfl⟩ := Nat.exists_eq_add_of_le hn
    exact run_of_rounds hend more
  have hle := rounds_le_of_more hmin
  refine ⟨rounds, by omega, ?_, hbehind⟩
  intro n
  refine ⟨?_, hmin n⟩
  intro hmore
  rcases Nat.lt_trichotomy n rounds with hlt | rfl | hgt
  · exact hlt
  · rw [hend] at hmore
    cases hmore
  · rw [hbehind n hgt, Cursor.skipTrivia_of_atEnd hend, hend] at hmore
    cases hmore

end ParseState

open ParseState in
/-- Every round of a parse passes a part of the text, behind blanks and
comments, and if it refuses its statement then it adds one error. There
are at most as many rounds as characters; then the text is at its end. -/
theorem Program.rounds_advance (program : Program) (set : InstructionSet)
    (source : String) (log : Log) :
    let start := ParseState.ofSource program source log
    (∀ n, (run set n start).cursor.skipTrivia.atEnd = false →
      let state := (run set n start).atStatement
      run set (n + 1) start = advance set state
        ∧ (∃ passed, passed ≠ [] ∧ (run set n start).cursor.skipTrivia.rest
            = passed ++ (run set (n + 1) start).cursor.rest)
        ∧ (state.isSkipping = false → ∀ fault middle,
          (Parse.statement set).run state = .error fault middle →
          (run set (n + 1) start).log = state.log.report fault.diagnostic
            ∧ (run set (n + 1) start).log.errorCount = (run set n start).log.errorCount + 1))
    ∧ ∃ rounds ≤ source.length,
      (∀ n, (run set n start).cursor.skipTrivia.atEnd = false ↔ n < rounds)
      ∧ start.toEnd set = { run set rounds start with
          cursor := (run set rounds start).cursor.skipTrivia } := by
  intro start
  refine ⟨?_, ?_⟩
  · intro n hmore state
    have hnext : run set (n + 1) start = advance set state := run_succ_of_more set hmore
    rw [hnext]
    refine ⟨rfl, exists_passed_of_advance set (rest_ne_nil_of_more hmore), ?_⟩
    intro hskipping fault middle h
    exact log_advance_of_error hskipping h
  · obtain ⟨rounds, hle, hmore, hend⟩ := exists_rounds set start
    exact ⟨rounds, hle, hmore, hend _ (Nat.lt_succ_of_le hle)⟩

end StackAsm
