/-
Reading on after errors. A refused statement is passed over to the end
of its line, and a block that opens on such a line is skipped whole. So
a skipped block is only ever closed again before a statement is read: the
blocks beneath are those that statements have opened, and they are in
order in every parse, whatever its text (`lasting_coherent`). At the end
of the file nothing is open, and the program is what is in order
(`Program.linkable_parse`).

What statements that succeed, the mark of announced locals and the
closing of a block preserve holds at the end of every parse (`Lasting`).
This is the one induction over texts that have errors. What is said of the
members of types and of open methods is said by `Keeps`.
-/
import StackAsm.Proofs.Parse.Coherence
import StackAsm.Proofs.Program.Members

namespace StackAsm

/-- Whether `P` holds of the members of a type and of every type in it, and
`M` of its open method. -/
def OpenType.Keeps (P : List Field → List Method → Prop)
    (M : OpenMethod → Prop) (t : OpenType) : Prop :=
  t.decl.All P ∧ ∀ m, t.method = some m → M m

namespace ParseState

variable {set : InstructionSet} {Inv : ParseState → Prop} {state next : ParseState}

-- ==== invariants

/-- What every step of a parse preserves, with or without errors; it is
not about the place in the text, the snapshot kept or the log. -/
structure Lasting (set : InstructionSet) (Inv : ParseState → Prop) : Prop where
  moved : ∀ {state next : ParseState}, state.Moved next → Inv state → Inv next
  logged : ∀ {state : ParseState} (log : Log), Inv state → Inv { state with log }
  effect : ∀ {state next : ParseState} {text : List Char}
    {braces : List Brace}, state.isSkipping = false → Effect set text state braces next →
      Inv state → Inv next
  announced : ∀ {state : ParseState} {t : OpenType} {outer : List Block}
    {m : OpenMethod}, state.InMethod t outer m → Inv state → Inv (state.announceLocals t outer m)
  skipped : ∀ {state : ParseState} (line : Nat), Inv state →
    Inv { state with blocks := .skipped line :: state.blocks }
  closed : ∀ {state : ParseState}, Inv state → Inv state.closeBlock

namespace Lasting

theorem followBraces (h : Lasting set Inv) (line : Nat) (braces : List Brace) (hinv : Inv state) :
    Inv (braces.foldl (followBrace line) state) := by
  induction braces generalizing state with
  | nil => exact hinv
  | cons brace braces ih =>
    cases brace with
    | opening => exact ih (h.skipped line hinv)
    | closing => exact ih (h.closed hinv)

theorem skipLine (h : Lasting set Inv) (hinv : Inv state) :
    Inv state.skipLine :=
  h.moved ⟨_, _, .inl rfl, rfl⟩ (h.followBraces state.cursor.line state.cursor.restOfLine.1 hinv)

/-- A refused statement is as if it had not been read, but for the report
and the mark of announced locals. -/
theorem refused {middle : ParseState} (h : Lasting set Inv)
    (hstays : state.Stays middle) (fault : ParseFault)
    (hinv : Inv state) : Inv (refused state middle fault) := by
  have hmiddle : Inv middle := by
    rcases hstays with hmoved | ⟨_, _, _, hmethod, hmoved⟩
    · exact h.moved hmoved hinv
    · exact h.moved hmoved (h.announced hmethod.toInMethod hinv)
  have hreport := h.logged (middle.log.report fault.diagnostic) hmiddle
  exact h.moved ⟨state.cursor, _, .inl rfl, rfl⟩ hreport

theorem advance (h : Lasting set Inv) (hinv : Inv state) : Inv (advance set state) := by
  rcases advance_cases set state with ⟨-, hnext⟩
    | ⟨hskip, _, _, htakes, heffect⟩
    | ⟨_, fault, hstays, hnext⟩
  · rw [hnext]
    exact h.skipLine hinv
  · refine h.effect ?_ heffect (h.moved htakes.moved hinv)
    unfold isSkipping at hskip ⊢
    rw [htakes.moved.blocks]
    exact hskip
  · rw [hnext]
    exact h.skipLine (h.refused hstays fault hinv)

theorem run (h : Lasting set Inv) (fuel : Nat) (hinv : Inv state) : Inv (run set fuel state) := by
  apply @run_induction set state Inv _ _ fuel hinv
  · exact fun state _ hstate => h.logged _ (h.moved ⟨_, _, .inl rfl, rfl⟩ hstate)
  · exact fun state hstate => h.advance hstate

theorem closeAll (h : Lasting set Inv) (hinv : Inv state) : Inv state.closeAll := by
  unfold ParseState.closeAll
  induction state.depth with
  | zero => exact hinv
  | succ count ih =>
    show Inv (closeUnclosed _)
    unfold closeUnclosed
    split
    · exact ih
    · split
      · exact h.closed ih
      · exact h.closed (h.logged _ ih)

/-- What lasts holds at the end of every source. -/
theorem toEnd {program : Program} {source : String} {log : Log}
    (h : Lasting set Inv) (hstart : Inv (.ofSource program source log)) :
    Inv ((ofSource program source log).toEnd set).closeAll := h.closeAll (h.run _ hstart)

end Lasting

-- ==== members

/-- Whether `P` holds of the members of every type so far, open or not, and
`M` of every open method. -/
structure Keeps (P : List Field → List Method → Prop)
    (M : OpenMethod → Prop) (state : ParseState) : Prop where
  program : state.program.All P
  opened : ∀ t, .type t ∈ state.blocks → t.Keeps P M

namespace Keeps

variable {P : List Field → List Method → Prop} {M : OpenMethod → Prop}
  {t changed : OpenType} {m : OpenMethod} {block : Block} {outer : List Block}

theorem innermost (h : state.Keeps P M)
    (hblocks : state.blocks = .type t :: outer) : t.Keeps P M := by
  refine h.opened t ?_
  rw [hblocks]
  exact .head _

theorem beneath (h : state.Keeps P M) (hblocks : state.blocks = block :: outer) :
    ∀ t, .type t ∈ outer → t.Keeps P M := by
  intro t ht
  refine h.opened t ?_
  rw [hblocks]
  exact .tail _ ht

/-- A block is put in front of others. -/
theorem push (hprogram : next.program.All P) (houter : ∀ t, .type t ∈ outer → t.Keeps P M)
    (hnext : next.blocks = block :: outer)
    (hblock : ∀ t, block = .type t → t.Keeps P M) : next.Keeps P M := by
  refine ⟨hprogram, fun t ht => ?_⟩
  rw [hnext] at ht
  rcases List.mem_cons.1 ht with ht | ht
  · exact hblock t ht.symm
  · exact houter t ht

variable (h : state.Keeps P M) (hblocks : state.blocks = .type t :: outer)
  (hprogram : next.program = state.program)

include h hblocks hprogram

theorem putType (hnext : next.blocks = .type changed :: outer)
    (hchanged : changed.Keeps P M) : next.Keeps P M := by
  refine push (hprogram ▸ h.program) (h.beneath hblocks) hnext ?_
  rintro _ ⟨⟩
  exact hchanged

theorem putMethod (hnext : next.blocks = .type { t with method := some m } :: outer)
    (hm : M m) : next.Keeps P M := by
  refine h.putType hblocks hprogram hnext ⟨(h.innermost hblocks).1, ?_⟩
  rintro _ ⟨⟩
  exact hm

theorem changeMethod {old : OpenMethod} (hold : t.method = some old)
    (hnext : next.blocks = .type { t with method := some m } :: outer) (hm : M old → M m) :
    next.Keeps P M := h.putMethod hblocks hprogram hnext (hm ((h.innermost hblocks).2 old hold))

theorem addMethod {method : Method} (hnext : next.blocks = .type { t with
        decl := { t.decl with methods := t.decl.methods ++ [method] }
        method := none } :: outer)
    (hown : P t.decl.fields t.decl.methods →
      P t.decl.fields (t.decl.methods ++ [method])) : next.Keeps P M := by
  have hdecl := (h.innermost hblocks).1
  exact h.putType hblocks hprogram hnext ⟨.node (hown hdecl.own) hdecl.nested, fun _ => nofun⟩

omit hprogram in
theorem closeType : (state.closeType t outer).Keeps P M := by
  have htype := h.innermost hblocks
  have houter := h.beneath hblocks
  unfold ParseState.closeType
  split
  · rename_i parent rest
    obtain ⟨hparent, hmethod⟩ := houter parent (.head _)
    refine push h.program (fun t ht =>
      houter t (.tail _ ht)) rfl ?_
    rintro _ ⟨⟩
    refine ⟨.node hparent.own ?_, hmethod⟩
    rw [List.forall_mem_append, List.forall_mem_singleton]
    exact ⟨hparent.nested, htype.1⟩
  · exact ⟨h.program.addType t.space htype.1, houter⟩

omit hblocks hprogram in
/-- A block is closed, if finished methods may join their types. -/
theorem closeBlock (hmarks : ∀ m, M m →
      M { m with localsLine := none, localsDeclared := true })
    (hfinish : ∀ fields methods m, P fields methods → M m →
      P fields (methods ++ [m.finish])) : state.closeBlock.Keeps P M := by
  unfold ParseState.closeBlock
  split
  · exact h
  · rename_i line outer hblocks
    exact ⟨h.program, h.beneath hblocks⟩
  · rename_i line outer hblocks
    exact ⟨h.program, h.beneath hblocks⟩
  · rename_i t outer hblocks
    split
    · exact h.closeType hblocks
    · rename_i m hm
      split
      · exact h.changeMethod hblocks rfl hm rfl (hmarks m)
      · exact h.addMethod hblocks rfl rfl fun hown =>
          hfinish _ _ m hown ((h.innermost hblocks).2 m hm)

end Keeps

-- ==== the end

theorem depth_closeUnclosed (state : ParseState) : state.closeUnclosed.depth = state.depth - 1 := by
  unfold closeUnclosed
  split
  · rename_i hblocks
    rw [depth_eq, hblocks]
    rfl
  · split
    · exact depth_closeBlock state
    · exact depth_closeBlock _

/-- Nothing is left open at the end. -/
theorem blocks_closeAll (state : ParseState) : state.closeAll.blocks = [] := by
  have hdepth : ∀ count, (Nat.repeat closeUnclosed count state).depth = state.depth - count := by
    intro count
    induction count with
    | zero => rfl
    | succ count ih =>
      show (closeUnclosed _).depth = _
      rw [depth_closeUnclosed, ih, Nat.sub_sub]
  have hzero : state.closeAll.depth = 0 := by
    rw [closeAll, hdepth, Nat.sub_self]
  by_contra hopen
  exact absurd hzero (Nat.ne_of_gt (depth_pos hopen))

-- ==== coherence

/-- The state beneath the blocks that are skipped. -/
def beneath (state : ParseState) : ParseState :=
  { state with blocks := state.blocks.dropWhile Block.isSkipped }

theorem beneath_of_not_skipping (h : state.isSkipping = false) : state.beneath = state := by
  obtain ⟨_, _, _, _, blocks, _, _, _⟩ := state
  cases blocks with
  | nil => rfl
  | cons block =>
    have hblock : block.isSkipped = false := h
    simp only [beneath, List.dropWhile_cons, hblock, Bool.false_eq_true, if_false]

variable {before : List BranchFixes}

theorem Coherent.beneath (h : state.Coherent before) :
    state.beneath = state := beneath_of_not_skipping (isSkipping_of_unskipped h.nested.unskipped)

theorem Coherent.announceLocals {t : OpenType} {outer : List Block}
    {m : OpenMethod} (h : state.Coherent before) (hmethod : state.InMethod t outer m) :
    (state.announceLocals t outer m).Coherent before :=
  h.putMethod hmethod.blocks hmethod.method rfl fun hm =>
    hm.setMarks _ _ _

/-- Closing a skipped block uncovers what is beneath it. -/
theorem closeBlock_of_skipping (h : state.isSkipping = true) :
    state.closeBlock.beneath = state.beneath := by
  unfold isSkipping at h
  split at h
  · rename_i block outer hblocks
    cases block with
    | skipped =>
      simp only [closeBlock, beneath, hblocks, List.dropWhile_cons, h, if_true]
    | space => cases h
    | type => cases h
  · cases h

/-- Beneath its skipped blocks every parse is coherent. -/
theorem lasting_coherent (set : InstructionSet) (before : List BranchFixes) :
    Lasting set fun state => state.beneath.Coherent before where
  moved := by
    rintro state next ⟨_, _, hkept, rfl⟩ h
    exact ⟨h.nested, h.linkable, h.listed, h.declared, h.scope.mayKeep hkept⟩
  logged log h := ⟨h.nested, h.linkable, h.listed, h.declared, h.scope⟩
  effect := by
    intro state next text braces hskip heffect h
    rw [beneath_of_not_skipping hskip] at h
    have hnext := heffect.coherent h
    rw [hnext.beneath]
    exact hnext
  announced := by
    intro state t outer m hmethod h
    rw [beneath_of_not_skipping (isSkipping_of_blocks hmethod.blocks)] at h
    exact h.announceLocals hmethod
  skipped line h := h
  closed := by
    intro state h
    cases hskip : state.isSkipping with
    | true =>
      rw [closeBlock_of_skipping hskip]
      exact h
    | false =>
      rw [beneath_of_not_skipping hskip] at h
      rw [h.closeBlock.beneath]
      exact h.closeBlock

end ParseState

-- ==== files

theorem ParseState.coherent_ofSource {program : Program}
    {before : List BranchFixes} (source : String) (log : Log)
    (hlink : Linkable program.entries before) (hlisted : program.Listed) :
    (ofSource program source log).Coherent before := by
  refine ⟨.spaces fun _ => nofun, ?_, hlisted, fun _ => nofun, ScopeStack.sound_empty⟩
  show Linkable (program.entries ++ []) _
  rw [List.append_nil]
  exact hlink

/-- A file that is read into a program leaves it in order, together with
the fixes of its branches. -/
theorem Program.linkable_parse {program : Program}
    {before : List BranchFixes} (set : InstructionSet) (source : String)
    (log : Log) (hlink : Linkable program.entries before) (hlisted : program.Listed) :
    Linkable (program.parse set source log).program.entries
        (before ++ (program.parse set source log).output.fixes)
      ∧ (program.parse set source log).program.Listed := by
  have hstart := ParseState.coherent_ofSource source log hlink hlisted
  have hend := (ParseState.lasting_coherent set before).toEnd hstart
  have hblocks := ParseState.blocks_closeAll ((ParseState.ofSource program source log).toEnd set)
  have hfinal := hend.linkable
  rw [ParseState.entries, ParseState.beneath, hblocks,
    List.dropWhile_nil, List.flatMap_nil, List.append_nil] at hfinal
  refine ⟨hfinal.of_perm (.refl _) fun fix => ?_, hend.listed.of_outline rfl rfl⟩
  show fix ∈ before ++ (ParseState.output _).fixes.reverse ↔ _
  rw [List.mem_append, List.mem_append, List.mem_reverse, or_comm]

end StackAsm
