/-
Statements that fail. A refused statement has no effect but reading
(`ParseState.Stays`): the blocks are as deep as before and nothing is
logged yet. One of them, a block of locals without its brace, leaves a
mark in the open method.

Most of a statement is also blind to the program and to what was reported
before (`Parse.Settles`). Only opening a type looks at the program, and
few steps change it, so a property of steps carries over to statements
once those few are looked at (`Parse.Carries`, `Parse.CarriesAll`).
-/
import StackAsm.Proofs.Parse.Turn

namespace StackAsm

namespace Parse

open ParseState

variable {α β : Type}

-- ==== steps

/-- Whether a step has no effect but reading if it fails, and neither looks
at the program and at earlier reports nor changes them. -/
structure Settles (step : Parse α) : Prop where
  error : ∀ {state next : ParseState} {fault : ParseFault},
    step.run state = .error fault next → state.Moved next
  blind : Blind step

theorem Moves.settles {step : Parse α} (h : Moves step) : Settles step := ⟨h.error, h.blind⟩

theorem settles_pure (a : α) : Settles (pure a : Parse α) := (quiet_pure a).settles

theorem settles_refuse (cause : ParseCause) (line : Nat)
    (column : Option Nat) : Settles (refuse cause line column : Parse α) :=
  (quiet_refuse cause line column).settles

theorem settles_modify {change : ParseState → ParseState}
    (h : ∀ other state, change (state.swap other)
      = (change state).swap other) :
    Settles (modify change : Parse PUnit) where
  error h := nomatch h
  blind := blind_modify h

theorem Moves.bind_settles {step : Parse α} {f : α → Parse β}
    (hstep : Moves step) (hf : ∀ a, Settles (f a)) :
    Settles (step >>= f) where
  error h := by
    rcases run_bind_error_iff.1 h with h | ⟨a, _, ha, h⟩
    · exact hstep.error h
    · exact (hstep.moved ha).trans ((hf a).error h)
  blind := hstep.blind.bind fun a => (hf a).blind

theorem settles_get_bind {f : ParseState → Parse β}
    (hsame : ∀ other state, f (state.swap other) = f state)
    (hf : ∀ state, Settles (f state)) : Settles (get >>= f) where
  error h := by
    exact (hf _).error h
  blind := blind_get_bind hsame fun state => (hf state).blind

-- ==== declarations

theorem settles_enterNamespace (rooted : Bool) (name : String)
    (line : Nat) : Settles (enterNamespace rooted name line) where
  error h := by
    unfold enterNamespace at h
    rw [run_get_bind] at h
    split at h
    · cases h
    · exact (quiet_refuse ..).error h
  blind := by
    refine ⟨fun other => ⟨fun state => ?_⟩⟩
    have hscope : (state.swap other).scope = state.scope := rfl
    unfold enterNamespace
    rw [run_get_bind, run_get_bind, hscope]
    cases if rooted then state.scope.enterRooted name
        else state.scope.enter name with
    | ok => rfl
    | error => rfl

theorem settles_methodDeclaration (t : OpenType) (outer : List Block)
    (line : Nat) : Settles (methodDeclaration t outer line) := by
  refine (quiet_methodHead ..).bind_settles fun _ => ?_
  split
  · exact settles_refuse ..
  refine quiet_skipTrivia.bind_settles fun _ => ?_
  refine quiet_cursor.bind_settles fun cur => ?_
  simp only
  split
  · split
    · exact settles_refuse ..
    · exact settles_modify fun _ _ => rfl
  · split
    · refine (moves_scan _).bind_settles fun _ => ?_
      exact quiet_cursor.bind_settles fun cur => settles_modify fun _ _ => rfl
    · exact settles_refuse ..

theorem settles_fieldDeclaration (t : OpenType) (outer : List Block)
    (line : Nat) : Settles (fieldDeclaration t outer line) := by
  refine quiet_cursor.bind_settles fun _ => ?_
  refine (quiet_fieldName ..).bind_settles fun _ => ?_
  refine (moves_scan _).bind_settles fun _ => ?_
  refine (quiet_typeSpec _).bind_settles fun _ => ?_
  split
  · exact settles_refuse ..
  · exact settles_modify fun _ _ => rfl

-- ==== bodies

theorem settles_putMethod (t : OpenType) (outer : List Block)
    (m : OpenMethod) : Settles (putMethod t outer m) :=
  settles_modify fun _ _ => rfl

/-- A block of locals is announced before its brace is read. -/
theorem blind_localsBlock (t : OpenType) (outer : List Block)
    (m : OpenMethod) : Blind (localsBlock t outer m) := by
  refine blind_cursor.bind fun _ => (blind_scan _).bind fun _ => ?_
  refine (blind_scan _).bind fun _ => ?_
  split
  · exact blind_refuse ..
  split
  · exact blind_refuse ..
  split
  · exact (settles_putMethod ..).blind.bind fun _ =>
      (blind_scan _).bind fun _ => (settles_putMethod ..).blind
  · exact blind_refuse ..

theorem settles_localsEntry (t : OpenType) (outer : List Block)
    (m : OpenMethod) : Settles (localsEntry t outer m) := by
  refine (moves_scan _).bind_settles fun _ => ?_
  split
  · exact settles_pure _
  refine quiet_cursor.bind_settles fun _ => ?_
  refine quiet_word.bind_settles fun _ => ?_
  refine (moves_scan _).bind_settles fun _ => ?_
  refine (quiet_typeSpec _).bind_settles fun _ => ?_
  split
  · exact settles_refuse ..
  split
  · exact settles_refuse ..
  · exact settles_putMethod ..

theorem settles_labelDeclaration (t : OpenType) (outer : List Block)
    (m : OpenMethod) : Settles (labelDeclaration t outer m) := by
  refine quiet_cursor.bind_settles fun _ => ?_
  refine quiet_word.bind_settles fun _ => ?_
  refine (moves_scan _).bind_settles fun _ => ?_
  split
  · exact settles_putMethod ..
  · exact settles_refuse ..

theorem settles_instruction (set : InstructionSet) (t : OpenType)
    (outer : List Block) (m : OpenMethod) :
    Settles (instruction set t outer m) := by
  refine quiet_cursor.bind_settles fun _ => ?_
  refine quiet_word.bind_settles fun _ => ?_
  simp only
  split
  · -- nothing comes behind a refusal
    refine ⟨fun h => ?_, ⟨fun _ => ⟨fun _ => rfl⟩⟩⟩
    cases h
    exact .refl _
  refine (quiet_arguments ..).bind_settles fun _ => ?_
  split
  · exact settles_refuse ..
  refine (quiet_visible _).bind_settles fun _ => ?_
  refine settles_get_bind (fun other state => ?_) fun state => ?_
  · simp only [swap, other.file]
  split
  · exact settles_refuse ..
  split
  · refine ⟨fun h => ?_, ?_⟩
    · cases h
    · exact (blind_modify fun other state => report_swap state other _).bind
        fun _ => (settles_putMethod ..).blind
  · exact settles_putMethod ..

-- ==== statements

/-- A property of steps carries over to declarations if steps that settle
have it, also those behind steps that only read, and so do the few steps
that do not settle. -/
structure Carries (Good : ∀ {α : Type}, Parse α → Prop) : Prop where
  settled : ∀ {α : Type} {step : Parse α}, Settles step → Good step
  bind : ∀ {α β : Type} {step : Parse α} {f : α → Parse β}, Moves step →
    (∀ a, Good (f a)) → Good (step >>= f)
  openType : ∀ name attrs line, Good (openType name attrs line)
  external : ∀ path, Good (modify fun state : ParseState =>
    { state with program := state.program.addExternal path } : Parse PUnit)

namespace Carries

variable {Good : ∀ {α : Type}, Parse α → Prop} (h : Carries Good)
include h

theorem typeDeclaration (line : Nat) : Good (typeDeclaration line) := by
  have hopen : ∀ name attrs, Good (do
      scan (Scan.expect '\x7b')
      Parse.openType name attrs line : Parse Unit) :=
    fun name attrs => h.bind (moves_scan _) fun _ => h.openType ..
  refine h.bind (moves_scan _) fun name => ?_
  refine h.bind (moves_scan _) fun _ => ?_
  split
  · refine h.bind quiet_cursor.toMoves fun _ => ?_
    exact h.bind (quiet_typeModifiers ..).toMoves fun attrs => hopen name attrs
  · exact h.bind (quiet_pure _).toMoves fun attrs => hopen name attrs

theorem namespaceStatement : Good namespaceStatement := by
  refine h.bind quiet_cursor.toMoves fun _ => ?_
  refine h.bind quiet_directive?.toMoves fun _ => ?_
  split
  · exact h.settled (settles_refuse ..)
  split
  · exact h.bind (moves_scan _) fun path =>
      h.settled (settles_modify fun _ _ => rfl)
  · exact h.bind (moves_scan _) fun path =>
      h.settled (settles_modify fun _ _ => rfl)
  · refine h.bind (moves_scan _) fun name => ?_
    refine h.bind (moves_scan _) fun _ => ?_
    exact h.bind (quiet_typeSpec _).toMoves fun _ =>
      h.settled (settles_modify fun _ _ => rfl)
  · exact h.bind (moves_scan _) fun path => h.external path
  · refine h.bind (moves_scan _) fun _ => ?_
    refine h.bind (moves_scan _) fun name => ?_
    exact h.bind (moves_scan _) fun _ =>
      h.settled (settles_enterNamespace ..)
  · exact h.typeDeclaration _
  · exact h.settled (settles_refuse ..)

theorem typeStatement (t : OpenType) (outer : List Block) : Good (typeStatement t outer) := by
  refine h.bind quiet_cursor.toMoves fun _ => ?_
  refine h.bind quiet_directive?.toMoves fun _ => ?_
  split
  · exact h.settled (settles_refuse ..)
  split
  · exact h.settled (settles_fieldDeclaration ..)
  · exact h.settled (settles_methodDeclaration ..)
  · exact h.typeDeclaration _
  · exact h.settled (settles_refuse ..)

end Carries

/-- It carries over to all statements if blind steps have it, and closing
a block. -/
structure CarriesAll (Good : ∀ {α : Type}, Parse α → Prop) : Prop extends Carries Good where
  blind : ∀ {α : Type} {step : Parse α}, Blind step → Good step
  look : ∀ {α : Type} {f : ParseState → Parse α}, (∀ other state, f (state.swap other) = f state) →
    (∀ state, Good (f state)) → Good (get >>= f)
  closeBlock : Good (modify ParseState.closeBlock : Parse PUnit)

theorem CarriesAll.statement {Good : ∀ {α : Type}, Parse α → Prop}
    (h : CarriesAll Good) (set : InstructionSet) :
    Good (statement set) := by
  refine h.look (fun _ _ => rfl) fun _ => ?_
  split
  · split
    · exact h.settled (settles_refuse ..)
    · exact h.bind (moves_scan _) fun _ => h.closeBlock
  · split
    · split
      · exact h.typeStatement ..
      · split
        · exact h.settled (settles_localsEntry ..)
        · refine h.bind quiet_cursor.toMoves fun _ => ?_
          split
          · exact h.blind (blind_localsBlock ..)
          split
          · exact h.settled (settles_labelDeclaration ..)
          · exact h.settled (settles_instruction ..)
    · exact h.settled (settles_pure _)
    · exact h.namespaceStatement

/-- Whether a step that fails has no effect but reading. -/
def FailsStill (step : Parse α) : Prop :=
  ∀ ⦃state next : ParseState⦄ ⦃fault : ParseFault⦄,
    step.run state = .error fault next → state.Moved next

theorem carries_failsStill : Carries FailsStill where
  settled h _ _ _ hrun := h.error hrun
  bind hstep hf := by
    intro state next fault h
    rcases run_bind_error_iff.1 h with h | ⟨a, _, ha, h⟩
    · exact hstep.error h
    · exact (hstep.moved ha).trans (hf a h)
  openType name attrs line := by
    intro state next fault h
    unfold openType at h
    rw [run_get_bind] at h
    simp only at h
    split at h
    · exact (quiet_refuse ..).error h
    · cases h
  external path := by
    intro state next fault h
    cases h

end Parse

-- ==== depth

namespace ParseState

variable {state next : ParseState}

theorem depth_eq (state : ParseState) : state.depth = (state.blocks.map Block.depth).sum := by
  have hfold : ∀ (blocks : List Block) (start : Nat),
      blocks.foldl (fun depth block => depth + block.depth) start
        = start + (blocks.map Block.depth).sum := by
    intro blocks
    induction blocks with
    | nil => exact fun start => rfl
    | cons block blocks ih =>
      intro start
      rw [List.foldl_cons, ih, List.map_cons, List.sum_cons, Nat.add_assoc]
  rw [depth, hfold, Nat.zero_add]

theorem depth_of_blocks (h : next.blocks = state.blocks) : next.depth = state.depth := by
  rw [depth_eq, depth_eq, h]

theorem depth_cons {block : Block} {outer : List Block} (h : state.blocks = block :: outer) :
    state.depth = block.depth + (outer.map Block.depth).sum := by
  rw [depth_eq, h, List.map_cons, List.sum_cons]

/-- How deep a type is with a method open. -/
theorem depth_type_some {t : OpenType} {m : OpenMethod} (h : t.method = some m) :
    (Block.type t).depth = if m.localsLine.isSome then 3 else 2 := by
  rw [Block.depth, h]

theorem depth_type_none {t : OpenType} (h : t.method = none) : (Block.type t).depth = 1 := by
  rw [Block.depth, h]

/-- Whether two states are equally deep and have the same log. -/
structure Level (state next : ParseState) : Prop where
  depth : next.depth = state.depth
  log : next.log = state.log

theorem Moved.level (h : state.Moved next) : state.Level next := ⟨depth_of_blocks h.blocks, h.log⟩

/-- The state in which the locals of the open method were announced. -/
def announceLocals (state : ParseState) (t : OpenType)
    (outer : List Block) (m : OpenMethod) : ParseState :=
  state.putType { t with method := some { m with localsSeen := true } } outer

/-- Whether a first block of locals is announced in that method, with no
brace behind the word. -/
structure LacksBrace (state : ParseState) (t : OpenType)
    (outer : List Block) (m : OpenMethod) : Prop
    extends state.InMethod t outer m where
  unseen : m.localsSeen = false
  empty : m.instructions = []
  dot : state.cursor.peek? = some '.'
  word : ∃ cursor, (do Scan.expect '.'; Scan.word).run state.cursor = .ok "locals" cursor
      ∧ cursor.skipTrivia.peek? ≠ some '\x7b'

/-- Whether a state is left behind by a refused statement: it was read,
and perhaps the locals of the open method were announced. -/
def Stays (state next : ParseState) : Prop :=
  state.Moved next ∨ ∃ t outer m, state.LacksBrace t outer m
    ∧ (state.announceLocals t outer m).Moved next

theorem Stays.level (h : state.Stays next) : state.Level next := by
  rcases h with hmoved | ⟨_, _, _, hmethod, hmoved⟩
  · exact hmoved.level
  · constructor
    · rw [depth_cons hmoved.blocks, depth_cons hmethod.blocks, depth_type_some hmethod.method]
      rfl
    · exact hmoved.log

end ParseState

namespace Parse

open ParseState

variable {set : InstructionSet} {state next : ParseState} {fault : ParseFault}

/-- A character that is demanded in vain does not come next. -/
theorem peek?_of_expect_error {c : Char}
    (h : (scan (Scan.expect c)).run state = .error fault next) :
    state.cursor.skipTrivia.peek? ≠ some c := by
  intro hnext
  have heat : (Scan.eat c).run state.cursor = .ok true _ :=
    (Scan.run_eat c state.cursor).trans (if_pos hnext)
  have hok : (Scan.expect c).run state.cursor = .ok () _ := run_bind_ok_iff.2 ⟨true, _, heat, rfl⟩
  rw [run_scan, hok] at h
  cases h

/-- A block of locals whose brace is missing has been announced. -/
theorem stays_of_localsBlock_error {t : OpenType} {outer : List Block}
    {m : OpenMethod} (hmethod : state.InMethod t outer m) (hdot : state.cursor.peek? = some '.')
    (h : (localsBlock t outer m).run state = .error fault next) :
    state.Stays next := by
  rcases run_bind_error_iff.1 h with h | ⟨_, _, hcur, h⟩
  · cases h
  cases hcur
  rcases run_bind_error_iff.1 h with h | ⟨_, _, hfirst, h⟩
  · exact .inl (moved_of_scan_error h)
  obtain ⟨hexpect, hfirst⟩ := scan_ok hfirst
  rcases run_bind_error_iff.1 h with h | ⟨_, second, hsecond, h⟩
  · exact .inl (hfirst.trans (moved_of_scan_error h))
  obtain ⟨hword, hsecond⟩ := scan_ok hsecond
  replace hsecond := hfirst.trans hsecond
  have hrefused : ∀ cause, EStateM.run (refuse cause state.cursor.line none
      : Parse Unit) second = .error fault next → state.Stays next := by
    intro cause h
    exact .inl (hsecond.trans ((quiet_refuse ..).error h))
  split at h
  · exact .inl (hsecond.trans ((quiet_refuse ..).error h))
  rename_i hlocals
  split at h
  · exact hrefused _ h
  rename_i hunseen
  split at h
  · rename_i hempty
    rw [putMethod, run_modify_bind] at h
    rcases run_bind_error_iff.1 h with h | ⟨_, _, -, h⟩
    · have hmoved := moved_of_scan_error h
      have hbrace := peek?_of_expect_error h
      rw [Decidable.not_not.1 hlocals] at hword
      refine .inr ⟨t, outer, m, ⟨hmethod, Bool.eq_false_iff.2 hunseen,
        List.isEmpty_iff.1 hempty, hdot, second.cursor,
        run_bind_ok_iff.2 ⟨_, _, hexpect, hword⟩, hbrace⟩, ?_⟩
      obtain ⟨cursor, kept, hkept, rfl⟩ := hsecond
      exact .trans ⟨cursor, kept, hkept, rfl⟩ hmoved
    · cases h
  · exact hrefused _ h

/-- A statement that fails leaves the state as it was. -/
theorem stays_of_statement_error (h : (statement set).run state = .error fault next) :
    state.Stays next := by
  unfold statement at h
  rw [run_get_bind] at h
  split at h
  · split at h
    · exact .inl ((quiet_refuse ..).error h)
    · rcases run_bind_error_iff.1 h with h | ⟨_, _, -, h⟩
      · exact .inl (moved_of_scan_error h)
      · cases h
  · split at h
    · rename_i t outer hblocks
      split at h
      · exact .inl (carries_failsStill.typeStatement t outer h)
      · rename_i m hsome
        split at h
        · exact .inl ((settles_localsEntry t outer m).error h)
        · rename_i hline
          rw [Option.not_isSome_iff_eq_none] at hline
          rcases run_bind_error_iff.1 h with h | ⟨_, _, hcur, h⟩
          · cases h
          cases hcur
          split at h
          · rename_i hdot
            exact stays_of_localsBlock_error ⟨hblocks, hsome, hline⟩ hdot h
          · split at h
            · exact .inl ((settles_labelDeclaration t outer m).error h)
            · exact .inl ((settles_instruction set t outer m).error h)
    · cases h
    · exact .inl (carries_failsStill.namespaceStatement h)

end Parse

end StackAsm
