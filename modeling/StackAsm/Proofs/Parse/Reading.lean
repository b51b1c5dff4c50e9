/-
Reading without effect. Most of a statement only moves ahead in the text
and may keep a snapshot of what is visible; the program, the blocks and
the log stay as they are (`Parse.Moves`). Steps of that kind that pass no
brace are quiet, whether they succeed or fail. A sequence of quiet steps is
quiet, so the parts of a statement need to be looked at once, here.

Nor do such steps see what they are read into. They look at the log for
the name of the file and at the program not at all, so they are the same
whatever the program is, whatever was reported before, and however the log
takes a warning: another program and another log in their place (`Swap`)
are there afterwards in the place of those that would be (`Parse.Blind`).
-/
import StackAsm.Parse.Declaration
import StackAsm.Parse.Instruction
import StackAsm.Proofs.Program.Tree
import StackAsm.Proofs.Source.Scanning

namespace StackAsm

/-- Whether a snapshot can be kept: it is the one from before, or what is
visible now. -/
def ScopeStack.MayKeep (stack : ScopeStack) (kept : Option Scope) : Prop :=
  kept = stack.kept ∨ ∃ typePath, kept = some (stack.visible typePath)

namespace ParseState

/-- Whether two states differ in the place in the text and the kept
snapshot only. -/
def Moved (state next : ParseState) : Prop :=
  ∃ cursor kept, state.scope.MayKeep kept ∧ next
    = { state with cursor, scope := { state.scope with kept } }

/-- The state `next` is reached by reading over those braces. -/
structure Reads (braces : List Brace) (state next : ParseState) : Prop where
  moved : state.Moved next
  passes : Passes braces state.cursor.rest next.cursor.rest

/-- The same, and something was read. -/
structure Takes (braces : List Brace) (state next : ParseState) : Prop
    extends Reads braces state next where
  shorter : next.cursor.rest.length < state.cursor.rest.length

variable {braces more : List Brace} {state middle next : ParseState}

theorem Moved.refl (state : ParseState) : state.Moved state :=
  ⟨state.cursor, state.scope.kept, .inl rfl, rfl⟩

theorem Moved.trans (hfirst : state.Moved middle)
    (hsecond : middle.Moved next) : state.Moved next := by
  obtain ⟨_, _, hbetween, rfl⟩ := hfirst
  obtain ⟨cursor, kept, hkept, rfl⟩ := hsecond
  refine ⟨cursor, kept, ?_, rfl⟩
  rcases hkept with hkept | hvisible
  · rw [hkept]
    exact hbetween
  · exact .inr hvisible

theorem Reads.refl (state : ParseState) : Reads [] state state := ⟨.refl state, Passes.refl _⟩

theorem Reads.trans (hfirst : Reads braces state middle) (hsecond : Reads more middle next) :
    Reads (braces ++ more) state next :=
  ⟨hfirst.moved.trans hsecond.moved, hfirst.passes.trans hsecond.passes⟩

/-- Something was read, and then perhaps more. -/
theorem Takes.trans (hfirst : Takes braces state middle) (hsecond : Reads more middle next) :
    Takes (braces ++ more) state next :=
  ⟨hfirst.toReads.trans hsecond, Nat.lt_of_le_of_lt hsecond.passes.length_le hfirst.shorter⟩

/-- Perhaps something was read, and then something. -/
theorem Reads.takes (hfirst : Reads braces state middle) (hsecond : Takes more middle next) :
    Takes (braces ++ more) state next :=
  ⟨hfirst.trans hsecond.toReads, Nat.lt_of_lt_of_le hsecond.shorter hfirst.passes.length_le⟩

end ParseState

/-- Another program and another log in the place of any. The log is of the
same file, and what is reported is reported there as well. -/
structure Swap where
  program : Program → Program
  log : Log → Log
  file : ∀ l, (log l).file = l.file
  report : ∀ l d, (log l).report d = log (l.report d)

namespace ParseState

/-- The same place of the same file with another program and another
log. -/
def swap (state : ParseState) (other : Swap) : ParseState :=
  { state with
    program := other.program state.program
    log := other.log state.log }

theorem report_swap (state : ParseState) (other : Swap) (d : Diagnostic) :
    (state.swap other).report d = (state.report d).swap other := by
  unfold report swap
  simp only [other.report]

end ParseState

namespace Parse

open ParseState

variable {α β : Type} {other : Swap} {state next : ParseState} {c : Char} {name typePath : String}

-- ==== blindness

/-- The answer of a step, with another program and another log behind
it. -/
def Result.swap (other : Swap) :
    EStateM.Result ParseFault ParseState α → EStateM.Result ParseFault ParseState α
  | .ok a next => .ok a (next.swap other)
  | .error fault next => .error fault (next.swap other)

/-- Whether a step is the same with the other program and the other
log. -/
structure Follows (other : Swap) (step : Parse α) : Prop where
  swap : ∀ state, step.run (state.swap other) = Result.swap other (step.run state)

/-- Whether a step neither looks at the program and at earlier reports nor
changes them. -/
structure Blind (step : Parse α) : Prop where
  follows : ∀ other, Follows other step

theorem blind_pure (a : α) : Blind (pure a : Parse α) := ⟨fun _ => ⟨fun _ => rfl⟩⟩

theorem blind_refuse (cause : ParseCause) (line : Nat)
    (column : Option Nat) : Blind (refuse cause line column : Parse α) :=
  ⟨fun _ => ⟨fun _ => rfl⟩⟩

theorem blind_cursor : Blind cursor := ⟨fun _ => ⟨fun _ => rfl⟩⟩

theorem follows_modify {change : ParseState → ParseState}
    (h : ∀ state, change (state.swap other) = (change state).swap other) :
    Follows other (modify change : Parse PUnit) := by
  refine ⟨fun state => ?_⟩
  show EStateM.Result.ok () (change (state.swap other)) = _
  rw [h]
  rfl

theorem blind_modify {change : ParseState → ParseState}
    (h : ∀ other state, change (state.swap other)
      = (change state).swap other) : Blind (modify change : Parse PUnit) :=
  ⟨fun other => follows_modify (h other)⟩

theorem Follows.bind {step : Parse α} {f : α → Parse β}
    (hstep : Follows other step) (hf : ∀ a, Follows other (f a)) :
    Follows other (step >>= f) := by
  refine ⟨fun state => ?_⟩
  have hsame := hstep.swap state
  cases hrun : step.run state with
  | ok a next =>
    rw [hrun] at hsame
    rw [run_bind_of_ok hsame, run_bind_of_ok hrun]
    exact (hf a).swap next
  | error =>
    rw [hrun] at hsame
    rw [run_bind_of_error hsame, run_bind_of_error hrun]
    rfl

theorem Blind.bind {step : Parse α} {f : α → Parse β}
    (hstep : Blind step) (hf : ∀ a, Blind (f a)) : Blind (step >>= f) :=
  ⟨fun other => (hstep.follows other).bind fun a => (hf a).follows other⟩

/-- Looking at what is the same with the other program and the other
log. -/
theorem follows_get_bind {f : ParseState → Parse β}
    (hsame : ∀ state, f (state.swap other) = f state) (hf : ∀ state, Follows other (f state)) :
    Follows other (get >>= f) := by
  refine ⟨fun state => ?_⟩
  rw [run_get_bind, run_get_bind, hsame]
  exact (hf state).swap state

theorem blind_get_bind {f : ParseState → Parse β}
    (hsame : ∀ other state, f (state.swap other) = f state)
    (hf : ∀ state, Blind (f state)) : Blind (get >>= f) :=
  ⟨fun other => follows_get_bind (hsame other) fun state => (hf state).follows other⟩

-- ==== steps

/-- Whether a step has no effect but reading. -/
structure Moves (step : Parse α) : Prop where
  moved : ∀ {state next : ParseState} {a : α}, step.run state = .ok a next → state.Moved next
  error : ∀ {state next : ParseState} {fault : ParseFault},
    step.run state = .error fault next → state.Moved next
  blind : Blind step

/-- Whether it also passes no brace. -/
structure Quiet (step : Parse α) : Prop extends Moves step where
  passes : ∀ {state next : ParseState} {a : α}, step.run state = .ok a next →
      Passes [] state.cursor.rest next.cursor.rest

theorem Quiet.ok {step : Parse α} {a : α} (hstep : Quiet step)
    (h : step.run state = .ok a next) : Reads [] state next :=
  ⟨hstep.moved h, hstep.passes h⟩

theorem Quiet.of_reads {step : Parse α} (hblind : Blind step)
    (hok : ∀ {state next : ParseState} {a : α}, step.run state = .ok a next → Reads [] state next)
    (herror : ∀ {state next : ParseState} {fault : ParseFault},
      step.run state = .error fault next → state.Moved next) :
    Quiet step := ⟨⟨fun h => (hok h).moved, herror, hblind⟩, fun h => (hok h).passes⟩

theorem Moves.bind {step : Parse α} {f : α → Parse β}
    (hstep : Moves step) (hf : ∀ a, Moves (f a)) : Moves (step >>= f) where
  moved := by
    intro state next b h
    obtain ⟨a, middle, ha, hb⟩ := run_bind_ok_iff.1 h
    exact (hstep.moved ha).trans ((hf a).moved hb)
  error := by
    intro state next fault h
    rcases run_bind_error_iff.1 h with h | ⟨a, middle, ha, h⟩
    · exact hstep.error h
    · exact (hstep.moved ha).trans ((hf a).error h)
  blind := hstep.blind.bind fun a => (hf a).blind

theorem Quiet.bind {step : Parse α} {f : α → Parse β}
    (hstep : Quiet step) (hf : ∀ a, Quiet (f a)) : Quiet (step >>= f) where
  toMoves := hstep.toMoves.bind fun a => (hf a).toMoves
  passes := by
    intro state next b h
    obtain ⟨a, _, ha, hb⟩ := run_bind_ok_iff.1 h
    exact ((hstep.ok ha).trans ((hf a).ok hb)).passes

theorem quiet_pure (a : α) : Quiet (pure a : Parse α) := by
  refine .of_reads (blind_pure a) (fun h => ?_) fun h => ?_
  · obtain ⟨-, rfl⟩ := run_pure_ok_iff.1 h
    exact .refl _
  · cases h

theorem quiet_refuse (cause : ParseCause) (line : Nat)
    (column : Option Nat) : Quiet (refuse cause line column : Parse α) := by
  refine .of_reads (blind_refuse cause line column)
    (fun h => (run_throw_ok_iff.1 h).elim) fun h => ?_
  cases h
  exact .refl _

/-- Looking at what is the same with any program and any log. -/
theorem quiet_get_bind {f : ParseState → Parse β}
    (hsame : ∀ other state, f (state.swap other) = f state)
    (hf : ∀ state, Quiet (f state)) : Quiet (get >>= f) := by
  refine .of_reads (blind_get_bind hsame fun state => (hf state).blind) (fun h => ?_) fun h => ?_
  · rw [run_get_bind] at h
    exact (hf _).ok h
  · rw [run_get_bind] at h
    exact (hf _).error h

theorem quiet_cursor : Quiet cursor := quiet_get_bind (fun _ _ => rfl) fun _ => quiet_pure _

-- ==== scanning

theorem run_scan (step : Scan α) (state : ParseState) :
    (scan step).run state = match step.run state.cursor with
        | .ok value cursor => .ok value { state with cursor }
        | .error error cursor =>
          .error (.ofScan error) { state with cursor } :=
  rfl

theorem blind_scan (step : Scan α) : Blind (scan step) := by
  refine ⟨fun other => ⟨fun state => ?_⟩⟩
  have hcursor : (state.swap other).cursor = state.cursor := rfl
  rw [run_scan, run_scan, hcursor]
  cases step.run state.cursor with
  | ok => rfl
  | error => rfl

/-- What a scan step that succeeded did. -/
theorem scan_ok {step : Scan α} {a : α} (h : (scan step).run state = .ok a next) :
    step.run state.cursor = .ok a next.cursor ∧ state.Moved next := by
  rw [run_scan] at h
  split at h
  · rename_i value cursor hstep
    cases h
    exact ⟨hstep, cursor, state.scope.kept, .inl rfl, rfl⟩
  · cases h

/-- A scan step that fails has no other effect. -/
theorem moved_of_scan_error {step : Scan α} {fault : ParseFault}
    (h : (scan step).run state = .error fault next) : state.Moved next := by
  rw [run_scan] at h
  split at h
  · cases h
  · rename_i error cursor hstep
    cases h
    exact ⟨cursor, state.scope.kept, .inl rfl, rfl⟩

theorem moves_scan (step : Scan α) : Moves (scan step) where
  moved h := (scan_ok h).2
  error := moved_of_scan_error
  blind := blind_scan step

theorem quiet_scan {step : Scan α} (hstep : step.Braceless) : Quiet (scan step) where
  toMoves := moves_scan step
  passes h := hstep (scan_ok h).1

/-- A character was passed. -/
theorem takes_eat {braces : List Brace} (h : (scan (Scan.eat c)).run state = .ok true next)
    (hc : ∀ rest, Passes braces (c :: rest) rest) :
    Takes braces state next := by
  obtain ⟨hrun, hmoved⟩ := scan_ok h
  exact ⟨⟨hmoved, Scan.passes_of_eat hrun (hc _)⟩, Scan.length_of_eat hrun⟩

/-- A character that had to come next was passed. -/
theorem takes_expect {braces : List Brace} {a : Unit}
    (h : (scan (Scan.expect c)).run state = .ok a next)
    (hc : ∀ rest, Passes braces (c :: rest) rest) :
    Takes braces state next := by
  obtain ⟨hrun, hmoved⟩ := scan_ok h
  have heat := Scan.eat_of_expect hrun
  exact ⟨⟨hmoved, Scan.passes_of_eat heat (hc _)⟩, Scan.length_of_eat heat⟩

/-- A word was read. -/
theorem takes_word (h : (scan Scan.word).run state = .ok name next) :
    Takes [] state next ∧ Text.IsWord name := by
  obtain ⟨hrun, hmoved⟩ := scan_ok h
  obtain ⟨hpasses, hword, hshorter⟩ := Scan.word_ok hrun
  exact ⟨⟨⟨hmoved, hpasses⟩, hshorter⟩, hword⟩

theorem quiet_word : Quiet (scan Scan.word) := quiet_scan Scan.skips_passes.word

theorem quiet_skipTrivia : Quiet (scan Scan.skipTrivia) := quiet_scan Scan.skips_passes.skipTrivia

theorem quiet_skipInline : Quiet (scan Scan.skipInline) := quiet_scan Scan.skips_passes.skipInline

theorem quiet_expect (hplain : isPlain c = true) :
    Quiet (scan (Scan.expect c)) := quiet_scan (Scan.braceless_expect hplain)

theorem quiet_eat (hplain : isPlain c = true) : Quiet (scan (Scan.eat c)) :=
  quiet_scan (Scan.braceless_eat hplain)

-- ==== types and modifiers

theorem quiet_visible (typePath : Option String) : Quiet (visible typePath) := by
  refine .of_reads ⟨fun _ => ⟨fun _ => rfl⟩⟩ (fun {state} _ _ h => ?_) fun h => ?_
  · unfold visible at h
    cases h
    refine ⟨?_, Passes.refl _⟩
    split
    · exact ⟨state.cursor, state.scope.kept, .inl rfl, rfl⟩
    · exact ⟨state.cursor, _, .inr ⟨typePath, rfl⟩, rfl⟩
  · cases h

theorem quiet_typeSpec (typePath : Option String) : Quiet (typeSpec typePath) := by
  refine quiet_skipTrivia.bind fun _ => quiet_cursor.bind fun _ => ?_
  refine (quiet_scan Scan.skips_passes.typeName).bind fun _ => ?_
  simp only
  split
  · exact quiet_pure _
  · refine (quiet_visible typePath).bind fun _ => ?_
    refine quiet_get_bind (fun other _ => ?_) fun _ => quiet_pure _
    simp only [swap, other.file]

theorem quiet_modifier (owner : Declared) (table : Modifiers)
    (attrs : Attributes) : Quiet (modifier owner table attrs) := by
  refine quiet_cursor.bind fun _ => quiet_word.bind fun _ => ?_
  split
  · exact quiet_pure _
  · exact quiet_refuse ..

/-- A directive has been read, or nothing has. -/
theorem quiet_directive? : Quiet directive? := by
  refine quiet_cursor.bind fun _ => ?_
  split
  · exact (quiet_expect rfl).bind fun _ => quiet_word.bind fun _ =>
      quiet_pure _
  · exact quiet_pure _

theorem takes_directive? {found : String × Nat} (h : directive?.run state = .ok (some found) next) :
    Takes [] state next := by
  obtain ⟨_, _, hcur, h⟩ := run_bind_ok_iff.1 h
  cases hcur
  split at h
  · obtain ⟨_, _, hdot, h⟩ := run_bind_ok_iff.1 h
    obtain ⟨_, hword, -⟩ := run_bind_pure_ok_iff.1 h
    exact (takes_expect hdot (Scan.passes_plain rfl)).trans (quiet_word.ok hword)
  · cases h

theorem quiet_typeModifiers (text : List Char) (attrs : Attributes) :
    Quiet (typeModifiers text attrs) := by
  induction text generalizing attrs with
  | nil => exact quiet_pure attrs
  | cons c text ih =>
    refine quiet_skipTrivia.bind fun _ => quiet_cursor.bind fun _ => ?_
    split
    · exact quiet_pure attrs
    · exact (quiet_modifier ..).bind fun attrs => ih attrs

/-- Going back to a place that was read from changes nothing else. -/
theorem moved_back {later : ParseState} (h : state.Moved later) :
    Reads [] state { later with cursor := state.cursor } := by
  obtain ⟨_, kept, hkept, rfl⟩ := h
  exact ⟨⟨state.cursor, kept, hkept, rfl⟩, Passes.refl _⟩

theorem quiet_fieldName (text : List Char) (attrs : Attributes) : Quiet (fieldName text attrs) := by
  induction text generalizing attrs with
  | nil => exact quiet_word.bind fun _ => quiet_pure _
  | cons c text ih =>
    refine quiet_skipTrivia.bind fun _ => ?_
    have hagain : Quiet (do
        fieldName text (← modifier .field Modifiers.ofFields attrs)) :=
      (quiet_modifier ..).bind fun attrs => ih attrs
    -- without a colon behind it the word is read again, as a modifier
    refine .of_reads ?_ (fun h => ?_) fun h => ?_
    · refine blind_cursor.bind fun start => (blind_scan _).bind fun word => ?_
      refine (blind_scan _).bind fun _ => blind_cursor.bind fun cur => ?_
      split
      · exact blind_pure _
      · exact (blind_modify fun _ _ => rfl).bind fun _ => hagain.blind
    · obtain ⟨start, _, hstart, h⟩ := run_bind_ok_iff.1 h
      cases hstart
      obtain ⟨word, first, hword, h⟩ := run_bind_ok_iff.1 h
      obtain ⟨_, second, hinline, h⟩ := run_bind_ok_iff.1 h
      obtain ⟨cur, _, hcur, h⟩ := run_bind_ok_iff.1 h
      cases hcur
      have hread := (quiet_word.ok hword).trans (quiet_skipInline.ok hinline)
      split at h
      · obtain ⟨-, rfl⟩ := run_pure_ok_iff.1 h
        exact hread
      · rw [run_modify_bind] at h
        exact (moved_back hread.moved).trans (hagain.ok h)
    · rcases run_bind_error_iff.1 h with hstart | ⟨start, _, hstart, h⟩
      · cases hstart
      cases hstart
      rcases run_bind_error_iff.1 h with hword | ⟨word, first, hword, h⟩
      · exact quiet_word.error hword
      have hmoved := quiet_word.moved hword
      rcases run_bind_error_iff.1 h with hinline | ⟨_, second, hinline, h⟩
      · exact hmoved.trans (quiet_skipInline.error hinline)
      have hmoved := hmoved.trans (quiet_skipInline.moved hinline)
      rcases run_bind_error_iff.1 h with hcur | ⟨cur, _, hcur, h⟩
      · cases hcur
      cases hcur
      split at h
      · cases h
      · rw [run_modify_bind] at h
        exact (moved_back hmoved).moved.trans (hagain.error h)

-- ==== methods

theorem quiet_parameters (typePath : String) (text : List Char)
    (params : List Variable) : Quiet (parameters typePath text params) := by
  induction text generalizing params with
  | nil => exact quiet_pure params
  | cons c text ih =>
    refine quiet_skipTrivia.bind fun _ => quiet_cursor.bind fun _ => ?_
    refine quiet_word.bind fun _ => (quiet_expect rfl).bind fun _ => ?_
    refine (quiet_typeSpec _).bind fun _ => ?_
    split
    · exact quiet_refuse ..
    · refine (quiet_eat rfl).bind fun _ => ?_
      split
      · exact ih _
      · exact (quiet_expect rfl).bind fun _ => quiet_pure _

/-- A variable of another name is a new one. -/
theorem not_mem_of_any {vars : List Variable} (h : ¬ vars.any (·.name == name) = true) :
    name ∉ vars.map (·.name) := by
  intro hmem
  obtain ⟨var, hvar, hname⟩ := List.mem_map.1 hmem
  exact h (List.any_eq_true.2 ⟨var, hvar, beq_iff_eq.2 hname⟩)

/-- No parameter is named twice. -/
theorem nodup_parameters {text : List Char} {params all : List Variable}
    (hnodup : (params.map (·.name)).Nodup)
    (h : (parameters typePath text params).run state = .ok all next) :
    (all.map (·.name)).Nodup := by
  induction text generalizing params state with
  | nil =>
    obtain ⟨rfl, -⟩ := run_pure_ok_iff.1 h
    exact hnodup
  | cons c text ih =>
    obtain ⟨_, _, -, h⟩ := run_bind_ok_iff.1 h
    obtain ⟨_, _, -, h⟩ := run_bind_ok_iff.1 h
    obtain ⟨name, _, -, h⟩ := run_bind_ok_iff.1 h
    obtain ⟨_, _, -, h⟩ := run_bind_ok_iff.1 h
    obtain ⟨type, _, -, h⟩ := run_bind_ok_iff.1 h
    split at h
    · cases h
    rename_i hfresh
    have hmore : ((params ++ [(⟨name, type⟩ : Variable)]).map (·.name)).Nodup :=
      nodup_map_concat hnodup (not_mem_of_any hfresh)
    obtain ⟨_, _, -, h⟩ := run_bind_ok_iff.1 h
    split at h
    · exact ih hmore h
    · obtain ⟨_, _, -, h⟩ := run_bind_ok_iff.1 h
      obtain ⟨rfl, -⟩ := run_pure_ok_iff.1 h
      exact hmore

theorem quiet_methodModifiers (text : List Char) (attrs : Attributes) :
    Quiet (methodModifiers text attrs) := by
  induction text generalizing attrs with
  | nil => exact quiet_pure attrs
  | cons c text ih =>
    refine quiet_skipInline.bind fun _ => quiet_cursor.bind fun _ => ?_
    split
    · exact quiet_pure attrs
    · exact (quiet_modifier ..).bind fun attrs => ih attrs

theorem quiet_methodEnd (typePath name : String) (line : Nat) (params : List Variable) :
    Quiet (methodEnd typePath name line params) := by
  have harrow : Scan.Braceless (Scan.eatText ['-', '>']) := Scan.braceless_eatText rfl
  refine quiet_cursor.bind fun _ => ?_
  refine (quiet_methodModifiers ..).bind fun _ => ?_
  refine (quiet_scan harrow).bind fun _ => ?_
  split
  · exact (quiet_typeSpec _).bind fun _ => quiet_pure _
  · exact (quiet_pure _).bind fun _ => quiet_pure _

theorem methodEnd_ok {line : Nat} {params : List Variable} {method : Method}
    (h : (methodEnd typePath name line params).run state
      = .ok method next) :
    method.name = name ∧ method.params = params ∧ method.body = {} := by
  obtain ⟨_, _, -, h⟩ := run_bind_ok_iff.1 h
  obtain ⟨_, _, -, h⟩ := run_bind_ok_iff.1 h
  obtain ⟨_, _, -, h⟩ := run_bind_ok_iff.1 h
  split at h
  · obtain ⟨result, _, -, h⟩ := run_bind_ok_iff.1 h
    obtain ⟨rfl, -⟩ := run_pure_ok_iff.1 h
    exact ⟨rfl, rfl, rfl⟩
  · obtain ⟨result, _, -, h⟩ := run_bind_ok_iff.1 h
    obtain ⟨rfl, -⟩ := run_pure_ok_iff.1 h
    exact ⟨rfl, rfl, rfl⟩

theorem quiet_methodHead (typePath : String) (line : Nat) : Quiet (methodHead typePath line) := by
  refine quiet_word.bind fun name => quiet_cursor.bind fun _ => ?_
  refine (quiet_expect rfl).bind fun _ => (quiet_eat rfl).bind fun _ => ?_
  split
  · exact (quiet_pure _).bind fun params =>
      quiet_methodEnd typePath name line params
  · exact (quiet_parameters ..).bind fun params =>
      quiet_methodEnd typePath name line params

/-- What holds of the head of a method: it has a name, no parameter is
named twice, and there is no body yet. -/
structure IsHead (method : Method) : Prop where
  name : Text.IsWord method.name
  params : (method.params.map (·.name)).Nodup
  body : method.body = {}

theorem isHead_of_methodHead {line : Nat} {method : Method}
    (h : (methodHead typePath line).run state = .ok method next) :
    IsHead method := by
  obtain ⟨name, _, hname, h⟩ := run_bind_ok_iff.1 h
  obtain ⟨-, hword⟩ := takes_word hname
  have hend : ∃ params state, (params.map (·.name)).Nodup
      ∧ (methodEnd typePath name line params).run state
        = .ok method next := by
    obtain ⟨_, _, -, h⟩ := run_bind_ok_iff.1 h
    obtain ⟨_, _, -, h⟩ := run_bind_ok_iff.1 h
    obtain ⟨_, _, -, h⟩ := run_bind_ok_iff.1 h
    split at h
    · obtain ⟨params, _, hparams, h⟩ := run_bind_ok_iff.1 h
      obtain ⟨rfl, rfl⟩ := run_pure_ok_iff.1 hparams
      exact ⟨[], _, List.nodup_nil, h⟩
    · obtain ⟨params, _, hparams, h⟩ := run_bind_ok_iff.1 h
      exact ⟨params, _, @nodup_parameters _ _ _ _ [] _ List.nodup_nil hparams, h⟩
  obtain ⟨params, state, hnodup, hend⟩ := hend
  obtain ⟨rfl, rfl, hbody⟩ := methodEnd_ok hend
  exact ⟨hword, hnodup, hbody⟩

-- ==== arguments

section Arguments

open Scan

variable {R : List Char → List Char → Prop} (h : Skips R)
include h

theorem keeps_argument : Keeps R argument := by
  refine h.bind h.skipTrivia fun _ => h.bind h.get fun _ => ?_
  split
  · exact h.bind h.literal fun _ => h.pure _
  · exact h.bind h.typeName fun _ => h.pure _

theorem keeps_argumentList (text : List Char) (args : List Argument) :
    Keeps R (argumentList text args) := by
  induction text generalizing args with
  | nil => exact h.pure _
  | cons c text ih =>
    refine h.bind (keeps_argument h) fun _ => ?_
    refine h.bind h.skipInline fun _ => h.bind h.get fun _ => ?_
    split
    · exact h.bind (h.expect rfl rfl) fun _ => ih _
    · exact h.pure _

theorem keeps_arguments (set : InstructionSet) (mnemonic : String) :
    Keeps R (arguments set mnemonic) := by
  refine h.bind h.atLineEnd fun _ => ?_
  split
  · exact h.pure _
  · refine h.bind h.get fun _ => ?_
    split
    · exact keeps_argumentList h ..
    · exact h.pure _

end Arguments

theorem quiet_arguments (set : InstructionSet) (mnemonic : String) :
    Quiet (scan (arguments set mnemonic)) :=
  quiet_scan (keeps_arguments Scan.skips_passes set mnemonic)

end Parse

end StackAsm
