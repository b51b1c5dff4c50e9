/-
Files apart from their program. A file is read into a program that has
the files before it, but reading looks at that program in one place only:
a type is refused if its full name is taken. Everything else is blind to
the program and to what was reported before (`Parse.Blind`), and what a
statement adds to one program it adds to any other (`Parse.Even`). So a
file that is read without errors could have been read by itself
(`ParseState.run_alone`), and one that can be read by itself can be read
into every program that has none of its types (`ParseState.run_onto`).
-/
import StackAsm.Proofs.Parse.Origins
import StackAsm.Proofs.Parse.Tidy
import StackAsm.Proofs.Program.Order

namespace StackAsm

-- ==== states

/-- What a statement adds to a program. -/
inductive Addition where
  | nothing
  | external (path : String)
  | type (space : String) (decl : TypeDecl)

/-- The program with the addition. -/
def Program.add (program : Program) : Addition → Program
  | .nothing => program
  | .external path => program.addExternal path
  | .type space decl => program.addType space decl

theorem Program.Joined.add {first second joined : Program}
    (h : first.Joined second joined) (addition : Addition) :
    first.Joined (second.add addition) (joined.add addition) := by
  cases addition with
  | nothing => exact h
  | external path => exact h.addExternal path
  | type space decl => exact h.addType space decl

namespace ParseState

/-- The same place of the same file, where it is read into another program
and behind other reports. -/
def onto (state : ParseState) (program : Program) (before : List Diagnostic) : ParseState :=
  { state with
    program
    log := { state.log with reported := state.log.reported ++ before } }

variable {state next : ParseState} {program : Program} {before : List Diagnostic}

theorem onto_self (state : ParseState) : state.onto state.program [] = state := by
  unfold onto
  rw [List.append_nil]

theorem errorCount_onto (state : ParseState) (program : Program) (before : List Diagnostic) :
    (state.onto program before).log.errorCount
      = state.log.errorCount + Diagnostic.errorCount before :=
  List.countP_append

/-- A closing brace adds the same to every program. -/
theorem closeBlock_onto (state : ParseState) :
    ∃ addition, state.closeBlock.program = state.program.add addition
      ∧ ∀ program before, (state.onto program before).closeBlock
        = state.closeBlock.onto (program.add addition) before := by
  obtain ⟨_, _, _, _, blocks, _, _, _⟩ := state
  rcases blocks with _ | ⟨block, outer⟩
  · exact ⟨.nothing, rfl, fun _ _ => rfl⟩
  cases block with
  | space | skipped => exact ⟨.nothing, rfl, fun _ _ => rfl⟩
  | type t =>
    obtain ⟨decl, _, space, method⟩ := t
    cases method with
    | none =>
      rcases outer with _ | ⟨block, outer⟩
      · exact ⟨.type space decl, rfl, fun _ _ => rfl⟩
      cases block with
      | type => exact ⟨.nothing, rfl, fun _ _ => rfl⟩
      | _ => exact ⟨.type space decl, rfl, fun _ _ => rfl⟩
    | some =>
      refine ⟨.nothing, ?_, fun _ _ => ?_⟩
      · unfold closeBlock
        simp only
        split <;> rfl
      · unfold closeBlock onto
        simp only
        split <;> rfl

end ParseState

-- ==== steps

namespace Parse

open ParseState

variable {α β : Type}

/-- The program and the reports of another place. -/
def ontoSwap (program : Program) (before : List Diagnostic) : Swap where
  program := fun _ => program
  log := fun log => { log with reported := log.reported ++ before }
  file _ := rfl
  report _ _ := rfl

/-- The answer of a step, where the rest of it is read into another
program. -/
def Result.onto (program : Program) (before : List Diagnostic) :
    EStateM.Result ParseFault ParseState α → EStateM.Result ParseFault ParseState α :=
  Result.swap (ontoSwap program before)

theorem Blind.onto {step : Parse α} (h : Blind step) (state : ParseState)
    (program : Program) (before : List Diagnostic) :
    step.run (state.onto program before)
      = Result.onto program before (step.run state) :=
  (h.follows (ontoSwap program before)).swap state

theorem Blind.program {step : Parse α} (h : Blind step)
    {state next : ParseState} {a : α} (hrun : step.run state = .ok a next) :
    next.program = state.program := by
  have hself := h.onto state state.program []
  rw [onto_self, hrun] at hself
  injection hself with _ hnext
  rw [hnext]
  rfl

-- ==== statements

/-- Whether a step does the same to every program, as long as the types it
opens are new there. -/
structure Even (step : Parse α) : Prop where
  alone : ∀ {state next : ParseState} {program : Program} {before : List Diagnostic} {a : α},
    step.run (state.onto program before) = .ok a next →
    (∀ full, program.find? full = none → state.program.find? full = none) →
    ∃ own addition, step.run state = .ok a own ∧ own.program = state.program.add addition
      ∧ next = own.onto (program.add addition) before
  onto : ∀ {state own : ParseState} {a : α}, step.run state = .ok a own →
    ∀ {program : Program} {before : List Diagnostic},
    (∀ full ∈ own.declared, state.program.find? full = none → program.find? full = none) →
    ∃ addition, own.program = state.program.add addition ∧ step.run (state.onto program before)
        = .ok a (own.onto (program.add addition) before)

theorem Blind.even {step : Parse α} (h : Blind step) : Even step where
  alone := by
    intro state next program before a hrun _
    rw [h.onto] at hrun
    cases hown : step.run state with
    | ok b own =>
      rw [hown] at hrun
      cases hrun
      exact ⟨own, .nothing, rfl, h.program hown, rfl⟩
    | error =>
      rw [hown] at hrun
      cases hrun
  onto := by
    intro state own a hrun program before _
    refine ⟨.nothing, h.program hrun, ?_⟩
    rw [h.onto, hrun]
    rfl

theorem Blind.bind_even {step : Parse α} {f : α → Parse β}
    (hstep : Blind step) (hf : ∀ a, Even (f a)) : Even (step >>= f) where
  alone := by
    intro state next program before b hrun hknown
    obtain ⟨a, middle, hmiddle, hnext⟩ := run_bind_ok_iff.1 hrun
    rw [hstep.onto] at hmiddle
    cases hown : step.run state with
    | error =>
      rw [hown] at hmiddle
      cases hmiddle
    | ok _ own =>
      rw [hown] at hmiddle
      cases hmiddle
      rw [← hstep.program hown] at hknown ⊢
      obtain ⟨last, addition, hlast, hprogram, rfl⟩ := (hf a).alone hnext hknown
      exact ⟨last, addition, run_bind_ok_iff.2 ⟨a, own, hown, hlast⟩, hprogram, rfl⟩
  onto := by
    intro state own b hrun program before hnew
    obtain ⟨a, middle, hmiddle, hnext⟩ := run_bind_ok_iff.1 hrun
    rw [← hstep.program hmiddle] at hnew ⊢
    obtain ⟨addition, hprogram, hlast⟩ := (hf a).onto hnext hnew
    refine ⟨addition, hprogram, ?_⟩
    have honto := hstep.onto state program before
    rw [hmiddle] at honto
    rw [run_bind_of_ok honto]
    exact hlast

theorem even_get_bind {f : ParseState → Parse β}
    (hsame : ∀ state program before, f (state.onto program before)
      = f state) (hf : ∀ state, Even (f state)) : Even (get >>= f) where
  alone := by
    intro state next program before b hrun hknown
    rw [run_get_bind, hsame] at hrun
    exact (hf state).alone hrun hknown
  onto := by
    intro state own b hrun program before hnew
    rw [run_get_bind, hsame]
    exact (hf state).onto hrun hnew

/-- A change that adds the same to every program. -/
theorem even_modify {change : ParseState → ParseState}
    (h : ∀ state, ∃ addition, (change state).program = state.program.add addition
      ∧ ∀ program before, change (state.onto program before)
        = (change state).onto (program.add addition) before) :
    Even (modify change : Parse PUnit) where
  alone := by
    intro state next program before a hrun _
    obtain ⟨addition, hprogram, honto⟩ := h state
    cases hrun
    exact ⟨change state, addition, rfl, hprogram, honto program before⟩
  onto := by
    intro state own a hrun program before _
    obtain ⟨addition, hprogram, honto⟩ := h state
    cases hrun
    refine ⟨addition, hprogram, ?_⟩
    rw [← honto]
    rfl

/-- A type is opened if its full name is new. -/
theorem openType_ok_iff {name : String} {attrs : Attributes} {line : Nat}
    {state next : ParseState} {a : Unit} :
    (openType name attrs line).run state = .ok a next
      ↔ fullName state name ∉ state.declared
        ∧ state.program.find? (fullName state name) = none
        ∧ next = { state with
          declared := fullName state name :: state.declared
          blocks := .type ⟨{ name, attrs, line }, fullName state name,
            state.scope.path, none⟩ :: state.blocks } := by
  refine ⟨openType_ok, ?_⟩
  rintro ⟨hdeclared, hunknown, rfl⟩
  unfold openType
  rw [run_get_bind]
  rw [if_neg]
  · rfl
  · rw [Bool.or_eq_true, not_or, List.contains_eq_mem, decide_eq_true_iff, hunknown]
    exact ⟨hdeclared, Bool.false_ne_true⟩

theorem even_openType (name : String) (attrs : Attributes) (line : Nat) :
    Even (openType name attrs line) where
  alone := by
    intro state next program before a hrun hknown
    obtain ⟨hdeclared, hunknown, rfl⟩ := openType_ok_iff.1 hrun
    exact ⟨_, .nothing, openType_ok_iff.2 ⟨hdeclared, hknown _ hunknown, rfl⟩, rfl, rfl⟩
  onto := by
    intro state own a hrun program before hnew
    obtain ⟨hdeclared, hunknown, rfl⟩ := openType_ok_iff.1 hrun
    exact ⟨.nothing, rfl, openType_ok_iff.2 ⟨hdeclared,
      hnew _ (.head _) hunknown, rfl⟩⟩

/-- A statement does the same to every program. -/
theorem carries_even : CarriesAll Even where
  settled h := h.blind.even
  bind hstep hf := hstep.blind.bind_even hf
  blind := Blind.even
  look hsame := even_get_bind fun state program before =>
    hsame (ontoSwap program before) state
  openType := even_openType
  external path := even_modify fun _ => ⟨.external path, rfl, fun _ _ => rfl⟩
  closeBlock := even_modify closeBlock_onto

end Parse

-- ==== runs

namespace ParseState

variable {set : InstructionSet} {state own : ParseState}
  {first program : Program} {before : List Diagnostic} {fixes : List BranchFixes} {fuel : Nat}

/-- A round without an error is a statement that succeeds. -/
theorem statement_of_advance (hskip : state.isSkipping = false)
    (h : (advance set state).log.errorCount = state.log.errorCount) :
    (Parse.statement set).run state = .ok () (advance set state) := by
  unfold advance at h ⊢
  rw [if_neg (Bool.eq_false_iff.1 hskip)] at h ⊢
  cases hrun : (Parse.statement set).run state with
  | ok => rfl
  | error fault middle =>
    rw [hrun] at h
    simp only [log_skipLine] at h
    have hlog := (Parse.stays_of_statement_error hrun).level.log
    have hlt := Log.errorCount_lt_report middle.log fault.isError_diagnostic
    rw [← hlog] at h
    exact absurd h (Nat.ne_of_gt hlt)

theorem advance_of_statement {next : ParseState} (hskip : state.isSkipping = false)
    (h : (Parse.statement set).run state = .ok () next) :
    advance set state = next := by
  unfold advance
  rw [if_neg (Bool.eq_false_iff.1 hskip), h]

/-- The types so far that are in the program are in order by
themselves. -/
theorem Coherent.types_in_order (h : state.Coherent fixes) :
    (∀ entry ∈ state.program.entries, entry.Sound)
      ∧ (state.program.entries.map (·.full)).Nodup := by
  refine ⟨fun entry hentry => h.linkable.sound entry (List.mem_append_left _ hentry), ?_⟩
  have hnodup := h.linkable.nodup
  rw [entries, List.map_append] at hnodup
  exact (List.nodup_append.1 hnodup).1

/-- The first round of a run without errors. -/
theorem first_round (h : state.Coherent fixes) (hmore : state.cursor.skipTrivia.atEnd = false)
    (herrors : (run set (fuel + 1) state).log.errorCount
      = state.log.errorCount) :
    (Parse.statement set).run state.atStatement
        = .ok () (advance set state.atStatement)
      ∧ (advance set state.atStatement).Coherent fixes
      ∧ (advance set state.atStatement).log.errorCount
        = state.log.errorCount := by
  have hlow := (adds_advance set state.atStatement).errorCount_le
  have hhigh := (adds_run set fuel (advance set state.atStatement)).errorCount_le
  rw [run_of_more set fuel hmore] at herrors
  rw [herrors] at hhigh
  have hround : (advance set state.atStatement).log.errorCount
      = state.log.errorCount := Nat.le_antisymm hhigh hlow
  have hone : run set 1 state = advance set state.atStatement := run_of_more set 0 hmore
  have hnext := @Coherent.run set state fixes h 1 (hone ▸ hround)
  rw [hone] at hnext
  refine ⟨statement_of_advance ?_ hround, hnext, hround⟩
  exact isSkipping_of_unskipped h.nested.unskipped

/-- What is new in the program is new in the file. -/
theorem Coherent.find?_own (hcoherent : (own.onto program before).Coherent
      fixes) (hjoined : first.Joined own.program program) {full : String}
    (h : program.find? full = none) : own.program.find? full = none := by
  obtain ⟨hsound, hnodup⟩ := hcoherent.types_in_order
  have hnot := Program.not_mem_of_find? hsound hnodup h
  have hmem : ∀ entry ∈ own.program.entries, entry ∈ program.entries :=
    fun entry hentry => hjoined.entries.mem_iff.2 (List.mem_append_right _ hentry)
  refine Program.find?_eq_none_of_not_mem (fun entry hentry => hsound entry (hmem entry hentry)) ?_
  intro hfull
  obtain ⟨entry, hentry, rfl⟩ := List.mem_map.1 hfull
  exact hnot (List.mem_map_of_mem (hmem entry hentry))

/-- A run without errors is the run of the file by itself, onto the
program. -/
theorem run_alone (hjoined : first.Joined own.program program)
    (hcoherent : (own.onto program before).Coherent fixes)
    (herrors : (run set fuel (own.onto program before)).log.errorCount
      = (own.onto program before).log.errorCount) :
    ∃ joined, run set fuel (own.onto program before)
        = (run set fuel own).onto joined before
      ∧ first.Joined (run set fuel own).program joined
      ∧ (run set fuel own).log.errorCount = own.log.errorCount := by
  induction fuel generalizing own program with
  | zero => exact ⟨program, rfl, hjoined, rfl⟩
  | succ fuel ih =>
    cases hend : own.cursor.skipTrivia.atEnd with
    | true =>
      rw [run_of_end set fuel hend, @run_of_end (own.onto program before) set fuel hend]
      exact ⟨program, rfl, hjoined, rfl⟩
    | false =>
      have hmore : (own.onto program before).cursor.skipTrivia.atEnd = false := hend
      obtain ⟨hstatement, hnext, hround⟩ := first_round hcoherent hmore herrors
      rw [run_of_more set fuel hmore] at herrors ⊢
      rw [run_of_more set fuel hend]
      -- a statement only asks the program for types of its own file
      obtain ⟨next, addition, hown, hprogram, heq⟩ := (Parse.carries_even.statement set).alone
          (show (Parse.statement set).run (own.atStatement.onto program before) = _ from hstatement)
          fun _ => hcoherent.find?_own hjoined
      have hadvance : advance set own.atStatement = next := advance_of_statement
          (isSkipping_of_unskipped hcoherent.nested.unskipped) hown
      rw [heq] at herrors hround hnext ⊢
      rw [hadvance]
      have hkept : next.log.errorCount = own.log.errorCount := by
        have hleft := errorCount_onto next (program.add addition) before
        have hright := errorCount_onto own program before
        omega
      have hjoined' : first.Joined next.program (program.add addition) := by
        rw [hprogram]
        exact hjoined.add addition
      obtain ⟨joined, hrun, hlast, hcount⟩ := ih hjoined' hnext (herrors.trans hround.symm)
      exact ⟨joined, hrun, hlast, hcount.trans hkept⟩

-- ==== into a program

theorem declared_closeBlock (state : ParseState) : state.closeBlock.declared = state.declared := by
  rw [closeBlock_eq]

/-- A name that was declared stays declared. -/
theorem lasting_declared (set : InstructionSet) (full : String) :
    Lasting set fun state => full ∈ state.declared where
  moved := by
    rintro state next ⟨_, _, -, rfl⟩ h
    exact h
  logged _ h := h
  effect := by
    intro state next text braces _ heffect h
    cases heffect with
    | close =>
      rw [declared_closeBlock]
      exact h
    | openType =>
      exact .tail _ h
    | _ => exact h
  announced _ h := h
  skipped _ h := h
  closed := by
    intro state h
    rw [declared_closeBlock]
    exact h

/-- What is new in the file is new in a program that has none of its
types. -/
theorem Coherent.find?_onto (hcoherent : own.Coherent fixes)
    (hjoined : first.Joined own.program program)
    (hsound : ∀ entry ∈ first.entries, entry.Sound) {full : String}
    (hnew : full ∉ first.entries.map (·.full))
    (h : own.program.find? full = none) : program.find? full = none := by
  obtain ⟨hown, hnodup⟩ := hcoherent.types_in_order
  have hmem : ∀ entry ∈ program.entries, entry ∈ first.entries ∨ entry ∈ own.program.entries :=
    fun entry hentry => List.mem_append.1 (hjoined.entries.mem_iff.1 hentry)
  refine Program.find?_eq_none_of_not_mem (fun entry hentry => ?_) ?_
  · rcases hmem entry hentry with hentry | hentry
    · exact hsound entry hentry
    · exact hown entry hentry
  · intro hfull
    obtain ⟨entry, hentry, rfl⟩ := List.mem_map.1 hfull
    rcases hmem entry hentry with hentry | hentry
    · exact hnew (List.mem_map_of_mem hentry)
    · exact Program.not_mem_of_find? hown hnodup h (List.mem_map_of_mem hentry)

/-- A run of the file by itself without errors has none onto a program
that has none of its types. -/
theorem run_onto (hjoined : first.Joined own.program program) (hcoherent : own.Coherent fixes)
    (hsound : ∀ entry ∈ first.entries, entry.Sound)
    (herrors : (run set fuel own).log.errorCount = own.log.errorCount)
    (hnew : ∀ full ∈ (run set fuel own).declared, full ∉ first.entries.map (·.full)) :
    (run set fuel (own.onto program before)).log.errorCount
      = (own.onto program before).log.errorCount := by
  induction fuel generalizing own program with
  | zero => rfl
  | succ fuel ih =>
    cases hend : own.cursor.skipTrivia.atEnd with
    | true => rw [@run_of_end (own.onto program before) set fuel hend]
    | false =>
      have hmore : (own.onto program before).cursor.skipTrivia.atEnd = false := hend
      obtain ⟨hstatement, hnext, hround⟩ := first_round hcoherent hend herrors
      rw [run_of_more set fuel hend] at herrors hnew
      rw [run_of_more set fuel hmore]
      obtain ⟨addition, hprogram, honto⟩ := (Parse.carries_even.statement set).onto hstatement
          fun full hfull => hcoherent.find?_onto hjoined hsound
            (hnew full ((lasting_declared set full).run fuel hfull))
      have hadvance : advance set (own.onto program before).atStatement
          = (advance set own.atStatement).onto (program.add addition) before := advance_of_statement
          (isSkipping_of_unskipped hcoherent.nested.unskipped) honto
      have hjoined' : first.Joined (advance set own.atStatement).program
          (program.add addition) := by
        rw [hprogram]
        exact hjoined.add addition
      rw [hadvance, ih hjoined' hnext (herrors.trans hround.symm) hnew,
        errorCount_onto, errorCount_onto, hround]

/-- A change of the open type that keeps its name and the types in it
keeps the full names. -/
theorem names_putType {t changed : OpenType} {outer : List Block}
    (hblocks : state.blocks = .type t :: outer) (hfull : changed.full = t.full)
    (hnested : changed.decl.nested = t.decl.nested) :
    (state.putType changed outer).entries.map (·.full) = state.entries.map (·.full) := by
  rw [entries_of_blocks hblocks, @entries_of_blocks (state.putType changed outer) changed outer rfl,
    hfull, hnested]
  simp only [List.map_append, List.map_cons]
  rfl

/-- A closing brace keeps the full names. -/
theorem names_closeBlock (hnested : Block.Nested state.blocks) :
    (state.closeBlock.entries.map (·.full)).Perm (state.entries.map (·.full)) := by
  unfold closeBlock
  split
  · exact .refl _
  · rename_i line outer hblocks
    unfold entries
    rw [hblocks]
    exact .refl _
  · rename_i line outer hblocks
    unfold entries
    rw [hblocks]
    exact .refl _
  · rename_i t outer hblocks
    split
    · exact (perm_closeType hnested hblocks).map _
    · split <;> exact .of_eq (names_putType hblocks rfl rfl)

/-- Full names are kept, and a name that is declared is one of them. -/
theorem Effect.names {text : List Char} {braces : List Brace}
    {next : ParseState} (heffect : Effect set text state braces next)
    (hnested : Block.Nested state.blocks)
    (h : ∀ full ∈ state.declared, full ∈ state.entries.map (·.full)) :
    ∀ full ∈ next.declared, full ∈ next.entries.map (·.full) := by
  have hput : ∀ {t changed : OpenType} {outer : List Block},
      state.blocks = .type t :: outer → changed.full = t.full →
      changed.decl.nested = t.decl.nested → ∀ full ∈ state.declared,
      full ∈ (state.putType changed outer).entries.map (·.full) := by
    intro t changed outer hblocks hfull hinner
    rw [names_putType hblocks hfull hinner]
    exact h
  cases heffect with
  | close =>
    rw [declared_closeBlock]
    exact fun full hfull =>
      (names_closeBlock hnested).mem_iff.2 (h full hfull)
  | noteExternal =>
    unfold entries at h ⊢
    rw [Program.entries_addExternal]
    exact h
  | openType =>
    rw [entries_of_blocks rfl, List.map_append, List.map_cons]
    intro full hfull
    rcases List.mem_cons.1 hfull with rfl | hfull
    · exact mem_middle.2 (.inl rfl)
    · refine mem_middle.2 (.inr ?_)
      rw [List.flatMap_nil, List.nil_append, ← List.map_append]
      exact h full hfull
  | addField field htype hfresh | addMethod method htype hhead hbodiless hfresh
  | openMethod method htype => exact hput htype.blocks rfl rfl
  | openLocals line hmethod =>
    exact hput hmethod.blocks rfl rfl
  | addLocal var hlocals =>
    exact hput hlocals.blocks rfl rfl
  | placeLabel name line hmethod | addInstruction scope args line hmethod =>
    exact hput hmethod.blocks rfl rfl
  | _ => exact h

/-- In a parse without errors the types that were declared are there. -/
theorem declared_in_order {start : ParseState}
    (hstart : start.Coherent fixes) (hnone : start.declared = [])
    {rounds : Nat} (herrors : (run set rounds start).log.errorCount
      = start.log.errorCount) :
    ∀ full ∈ (run set rounds start).declared,
      full ∈ (run set rounds start).entries.map (·.full) := by
  have hinv := @run_invariant set start (fun state =>
    state.Coherent fixes ∧ ∀ full ∈ state.declared, full ∈ state.entries.map (·.full))
    ?_ ?_ ?_ rounds ⟨hstart, by rw [hnone]; exact nofun⟩ herrors
  · exact hinv.2
  · exact fun state _ h => ⟨⟨h.1.nested, h.1.linkable, h.1.listed, h.1.declared, h.1.scope⟩, h.2⟩
  · exact fun state h => isSkipping_of_unskipped h.1.nested.unskipped
  · rintro state _ _ ⟨hcoherent, hnamed⟩ ⟨_, htakes, heffect⟩
    have hread := hcoherent.moved htakes.moved
    refine ⟨heffect.coherent hread, heffect.names hread.nested ?_⟩
    obtain ⟨_, _, -, rfl⟩ := htakes.moved
    exact hnamed

end ParseState

-- ==== files

/-- What was read, where nothing is left open. -/
def ParseState.parsed (last : ParseState) : Parsed := ⟨{ last.program with
      aliases := last.program.aliases ++ last.aliases.reverse },
    last.log, last.output.reverse⟩

/-- The start of a file that is read by itself. -/
def ParseState.ofFile (strict : Bool) (file text : String) : ParseState :=
  .ofSource {} text { file, warningsAsErrors := strict }

/-- What a file has by itself. -/
def Parsed.ofFile (set : InstructionSet) (strict : Bool) (file text : String) : Parsed :=
  ({} : Program).parse set text { file, warningsAsErrors := strict }

namespace Program

variable {set : InstructionSet} {program : Program} {source : String}
  {log : Log} {fixes : List BranchFixes} {file text : String}

theorem parse_of_blocks (h : ((ParseState.ofSource program source log).toEnd set).blocks = []) :
    program.parse set source log
      = ((ParseState.ofSource program source log).toEnd set).parsed :=
  congrArg ParseState.parsed (ParseState.closeAll_of_closed h)

/-- A parse without errors leaves nothing open. -/
theorem blocks_toEnd (hlink : Linkable program.entries fixes) (hlisted : program.Listed)
    (herrors : (program.parse set source log).log.errorCount
      = log.errorCount) :
    ((ParseState.ofSource program source log).toEnd set).log.errorCount
        = log.errorCount
      ∧ ((ParseState.ofSource program source log).toEnd set).blocks = [] := by
  obtain ⟨hread, hclosed⟩ := errorCount_toEnd herrors
  have hend : ((ParseState.ofSource program source log).toEnd set).Coherent fixes :=
    (ParseState.coherent_ofSource source log hlink hlisted).run hread
  exact ⟨hread, ParseState.blocks_of_closeAll hend.nested.unskipped hclosed⟩

/-- Reading a file into a program, if there are no errors while it is
read. -/
theorem toEnd_alone (hlink : Linkable program.entries fixes) (hlisted : program.Listed)
    (herrors : ((ParseState.ofSource program text
      (log.openFile file)).toEnd set).log.errorCount = log.errorCount) :
    ∃ joined, (ParseState.ofSource program text (log.openFile file)).toEnd set
        = ((ParseState.ofFile log.warningsAsErrors file text).toEnd set).onto joined log.reported
      ∧ program.Joined ((ParseState.ofFile log.warningsAsErrors file text).toEnd set).program joined
      ∧ ((ParseState.ofFile log.warningsAsErrors file text).toEnd set).log.errorCount = 0 :=
  @ParseState.run_alone set (.ofFile log.warningsAsErrors file text)
    program program log.reported fixes _ (Joined.start program)
    (ParseState.coherent_ofSource text (log.openFile file) hlink hlisted) herrors

/-- A file that is read without errors can be read by itself, and the
program it is read into gets what the file has by itself. -/
theorem parse_alone (hlink : Linkable program.entries fixes) (hlisted : program.Listed)
    (herrors : (program.parse set text (log.openFile file)).log.errorCount
      = log.errorCount) :
    (Parsed.ofFile set log.warningsAsErrors file text).log.errorCount = 0
      ∧ (program.parse set text (log.openFile file)).output
        = (Parsed.ofFile set log.warningsAsErrors file text).output
      ∧ program.Joined (Parsed.ofFile set log.warningsAsErrors file text).program
        (program.parse set text (log.openFile file)).program := by
  obtain ⟨hcount, hblocks⟩ := blocks_toEnd hlink hlisted herrors
  obtain ⟨joined, hsame, hjoined, hnone⟩ := toEnd_alone hlink hlisted hcount
  rw [parse_of_blocks hblocks, hsame]
  rw [hsame] at hblocks
  unfold Parsed.ofFile
  rw [parse_of_blocks hblocks]
  refine ⟨hnone, rfl, hjoined.spread, hjoined.externals, ?_⟩
  show joined.aliases ++ _ = program.aliases ++ (_ ++ _)
  rw [hjoined.aliases, List.append_assoc]
  rfl

/-- A file that can be read by itself can be read into every program that
has none of its types. -/
theorem parse_onto (hlink : Linkable program.entries fixes) (hlisted : program.Listed)
    (hown : (Parsed.ofFile set log.warningsAsErrors file text).log.errorCount = 0)
    (hnew : ∀ entry ∈ (Parsed.ofFile set log.warningsAsErrors file
      text).program.entries, entry.full ∉ program.entries.map (·.full)) :
    (program.parse set text (log.openFile file)).log.errorCount = log.errorCount := by
  have hempty := sound_empty set
  have hstart := ParseState.coherent_ofSource text
    { file, warningsAsErrors := log.warningsAsErrors } hempty.linkable hempty.listed
  obtain ⟨hcount, hblocks⟩ := blocks_toEnd hempty.linkable hempty.listed hown
  have hdeclared := ParseState.declared_in_order hstart rfl hcount
  have hentries : (Parsed.ofFile set log.warningsAsErrors file
      text).program.entries = ((ParseState.ofFile log.warningsAsErrors
        file text).toEnd set).entries := by
    unfold Parsed.ofFile ParseState.ofFile
    rw [parse_of_blocks hblocks, ParseState.entries, hblocks, List.flatMap_nil, List.append_nil]
    rfl
  rw [hentries] at hnew
  have hrun : ((ParseState.ofSource program text
      (log.openFile file)).toEnd set).log.errorCount = log.errorCount := by
    refine @ParseState.run_onto set _ program program log.reported [] _
      (Joined.start program) hstart hlink.sound hcount ?_
    intro full hfull
    obtain ⟨entry, hentry, rfl⟩ := List.mem_map.1 (hdeclared full hfull)
    exact hnew entry hentry
  -- the same blocks are open at the end, so none is
  obtain ⟨_, hsame, -, -⟩ := toEnd_alone hlink hlisted hrun
  have hclosed : ((ParseState.ofSource program text
      (log.openFile file)).toEnd set).blocks = [] := by
    rw [hsame]
    exact hblocks
  rw [parse_of_blocks hclosed]
  exact hrun

end Program

end StackAsm
