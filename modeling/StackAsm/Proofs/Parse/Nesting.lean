/-
Blocks and braces. Whatever a source text holds, the open blocks are as
deep as its braces up to the place reading has come to. Statements pass
their own braces, a refused statement goes back to its start and its
line is followed brace by brace, and so is every line of a block that is
skipped. A parse that reports no error has met every brace with its
partner, so the braces of its text are balanced.
-/
import StackAsm.Machine.Standard
import StackAsm.Proofs.Parse.Method
import StackAsm.Proofs.Parse.Run

namespace StackAsm

namespace Brace

theorem depthBehind?_opening (depth : Nat) (braces : List Brace) :
    depthBehind? depth (.opening :: braces) = depthBehind? (depth + 1) braces := rfl

theorem depthBehind?_closing {depth : Nat} (braces : List Brace) (h : 0 < depth) :
    depthBehind? depth (.closing :: braces) = depthBehind? (depth - 1) braces := by
  obtain ⟨_, rfl⟩ := Nat.exists_eq_succ_of_ne_zero (Nat.ne_of_gt h)
  rfl

/-- Braces with partners are as deep as they are with the others passed
over. -/
theorem foldl_depthAfter {depth last : Nat} {braces : List Brace}
    (h : depthBehind? depth braces = some last) :
    braces.foldl depthAfter depth = last := by
  induction braces generalizing depth with
  | nil =>
    cases h
    rfl
  | cons brace braces ih =>
    cases brace with
    | opening => exact ih h
    | closing =>
      cases depth with
      | zero => cases h
      | succ => exact ih h

end Brace

namespace ParseState

variable {set : InstructionSet} {text : List Char} {state next : ParseState}
  {braces : List Brace} {t : OpenType} {m : OpenMethod} {block : Block}

-- ==== depth

theorem InType.depth {outer : List Block} (h : state.InType t outer) :
    state.depth = 1 + (outer.map Block.depth).sum := by
  rw [depth_cons h.blocks, depth_type_none h.method]

theorem InMethod.depth {outer : List Block} (h : state.InMethod t outer m) :
    state.depth = 2 + (outer.map Block.depth).sum := by
  rw [depth_cons h.blocks, depth_type_some h.method, h.localsLine]
  rfl

theorem InLocals.depth {outer : List Block} (h : state.InLocals t outer m) :
    state.depth = 3 + (outer.map Block.depth).sum := by
  rw [depth_cons h.blocks, depth_type_some h.method, if_pos h.localsLine]

theorem depth_pos (h : state.blocks ≠ []) : 0 < state.depth := by
  obtain ⟨block, _, hblocks⟩ := List.exists_cons_of_ne_nil h
  rw [depth_cons hblocks]
  have hblock : 0 < block.depth := by
    unfold Block.depth
    split
    · exact Nat.one_pos
    · exact Nat.one_pos
    · split
      · exact Nat.one_pos
      · split <;> exact Nat.succ_pos _
  omega

/-- Closing a block closes one brace, if any is open. -/
theorem depth_closeBlock (state : ParseState) : state.closeBlock.depth = state.depth - 1 := by
  unfold closeBlock
  split
  · rename_i hblocks
    rw [depth_eq, hblocks]
    rfl
  · rename_i line outer hblocks
    rw [depth_cons hblocks, depth_eq, Block.depth, Nat.add_sub_cancel_left]
  · rename_i line outer hblocks
    rw [depth_cons hblocks, depth_eq, Block.depth, Nat.add_sub_cancel_left]
  · rename_i t outer hblocks
    split
    · rename_i hnone
      rw [depth_cons hblocks, depth_type_none hnone, Nat.add_sub_cancel_left]
      unfold closeType
      split
      · rw [depth_cons rfl, List.map_cons, List.sum_cons]
        rfl
      · exact depth_eq _
    · rename_i m hsome
      rw [depth_cons hblocks, depth_type_some hsome]
      split
      · rename_i hline
        rw [depth_cons rfl, depth_type_some rfl]
        simp only [Option.isSome_none, Bool.false_eq_true, if_false]
        omega
      · unfold closeMethod
        rw [depth_cons rfl, depth_type_none rfl]
        omega

theorem localsLine_placeLabel {placed : OpenMethod} {name : String}
    {line : Nat} (h : m.placeLabel name line = .ok placed) :
    placed.localsLine = m.localsLine := by
  rcases OpenMethod.placeLabel_cases h with ⟨_, _, -, -, -, rfl⟩ | ⟨-, -, rfl⟩ <;> rfl

theorem localsLine_addInstruction (m : OpenMethod)
    (instruction : Instruction) (implicit : List String) :
    (m.addInstruction instruction implicit).localsLine = m.localsLine := rfl

/-- A statement is deeper by the braces it passes, which all have their
partner. -/
theorem Effect.depth (h : Effect set text state braces next) :
    Brace.depthBehind? state.depth braces = some next.depth := by
  cases h with
  | close hopen =>
    rw [Brace.depthBehind?_closing _ (depth_pos hopen), depth_closeBlock]
    rfl
  | openSpace =>
    refine congrArg some (Eq.trans ?_ (depth_cons rfl).symm)
    rw [Block.depth, ← depth_eq, Nat.add_comm]
  | openType =>
    refine congrArg some (Eq.trans ?_ (depth_cons rfl).symm)
    rw [depth_type_none rfl, ← depth_eq, Nat.add_comm]
  | addField field htype | addMethod method htype =>
    refine congrArg some (Eq.trans ?_ (depth_cons rfl).symm)
    rw [htype.depth]
    exact congrArg (· + _) (depth_type_none htype.method).symm
  | openMethod method htype =>
    rw [Brace.depthBehind?_opening, htype.depth]
    refine congrArg some (Eq.trans ?_ (depth_cons rfl).symm)
    show _ = 2 + _
    omega
  | openLocals line hmethod =>
    rw [Brace.depthBehind?_opening, hmethod.depth]
    refine congrArg some (Eq.trans ?_ (depth_cons rfl).symm)
    show _ = 3 + _
    omega
  | addLocal var hlocals =>
    refine congrArg some (Eq.trans ?_ (depth_cons rfl).symm)
    rw [hlocals.depth, depth_type_some rfl]
    exact congrArg (· + _) (if_pos hlocals.localsLine).symm
  | placeLabel name line hmethod hplaced =>
    refine congrArg some (Eq.trans ?_ (depth_cons rfl).symm)
    rw [hmethod.depth, depth_type_some rfl, localsLine_placeLabel hplaced, hmethod.localsLine]
    rfl
  | addInstruction scope args line hmethod =>
    refine congrArg some (Eq.trans ?_ (depth_cons rfl).symm)
    rw [hmethod.depth, depth_type_some rfl, localsLine_addInstruction, hmethod.localsLine]
    rfl
  | _ => rfl

theorem Turn.depth (h : Turn set state braces next) :
    Brace.depthBehind? state.depth braces = some next.depth := by
  obtain ⟨_, htakes, heffect⟩ := h
  rw [← depth_of_blocks htakes.moved.blocks]
  exact heffect.depth

-- ==== rounds

/-- A line that is passed over is followed brace by brace. -/
theorem depth_followBraces (line : Nat) (braces : List Brace) (state : ParseState) :
    (braces.foldl (followBrace line) state).depth = braces.foldl Brace.depthAfter state.depth := by
  induction braces generalizing state with
  | nil => rfl
  | cons brace braces ih =>
    rw [List.foldl_cons, List.foldl_cons, ih]
    cases brace with
    | opening =>
      have hdepth : (followBrace line state .opening).depth = (Block.skipped line).depth
            + (state.blocks.map Block.depth).sum := depth_cons rfl
      rw [hdepth, ← depth_eq, Nat.add_comm]
      rfl
    | closing =>
      rw [followBrace, depth_closeBlock]
      rfl

/-- From one state to the other the braces are followed. -/
structure Follows (state next : ParseState) (braces : List Brace) : Prop where
  passes : Passes braces state.cursor.rest next.cursor.rest
  depth : next.depth = braces.foldl Brace.depthAfter state.depth

theorem Follows.trans {middle : ParseState} {more : List Brace}
    (hfirst : state.Follows middle braces) (hsecond : middle.Follows next more) :
    state.Follows next (braces ++ more) where
  passes := hfirst.passes.trans hsecond.passes
  depth := by rw [hsecond.depth, hfirst.depth, List.foldl_append]

theorem follows_skipLine (state : ParseState) :
    state.Follows state.skipLine state.cursor.restOfLine.1 :=
  ⟨state.cursor.passes_restOfLine, depth_followBraces ..⟩

theorem follows_advance (set : InstructionSet) (state : ParseState) :
    ∃ braces, state.Follows (advance set state) braces := by
  rcases advance_cases set state with ⟨-, hnext⟩ | ⟨-, braces, hturn⟩
    | ⟨middle, fault, hstays, hnext⟩
  · rw [hnext]
    exact ⟨_, state.follows_skipLine⟩
  · exact ⟨braces, hturn.passes, (Brace.foldl_depthAfter hturn.depth).symm⟩
  · -- reading goes back to the start of the statement
    rw [hnext]
    obtain ⟨hpasses, hdepth⟩ := (refused state middle fault).follows_skipLine
    have hrefused : (refused state middle fault).depth = state.depth := hstays.level.depth
    rw [hrefused] at hdepth
    exact ⟨_, hpasses, hdepth⟩

/-- However many rounds are read, the blocks are in step with the
braces. -/
theorem follows_run (set : InstructionSet) (fuel : Nat) (state : ParseState) :
    ∃ braces, state.Follows (run set fuel state) braces := by
  refine @run_induction set state (fun later => ∃ braces, state.Follows later braces) ?_ ?_ fuel ?_
  · intro later _ h
    obtain ⟨_, hread⟩ := h
    exact ⟨_, hread.trans ⟨later.cursor.passes_skipTrivia, rfl⟩⟩
  · intro later h
    obtain ⟨_, hread⟩ := h
    obtain ⟨_, hround⟩ := follows_advance set later
    exact ⟨_, hread.trans hround⟩
  · exact ⟨[], Passes.refl _, rfl⟩

-- ==== balance

/-- Whether none of the blocks is passed over. -/
def Unskipped (blocks : List Block) : Prop := ∀ block ∈ blocks, block.isSkipped = false

theorem Unskipped.cons {blocks : List Block}
    (hblock : block.isSkipped = false) (h : Unskipped blocks) :
    Unskipped (block :: blocks) := List.forall_mem_cons.2 ⟨hblock, h⟩

theorem Unskipped.outer {blocks : List Block}
    (h : Unskipped (block :: blocks)) : Unskipped blocks :=
  (List.forall_mem_cons.1 h).2

theorem unskipped_closeBlock (h : Unskipped state.blocks) : Unskipped state.closeBlock.blocks := by
  unfold closeBlock
  split
  · exact h
  · rename_i line outer hblocks
    rw [hblocks] at h
    exact h.outer
  · rename_i line outer hblocks
    rw [hblocks] at h
    exact h.outer
  · rename_i t outer hblocks
    rw [hblocks] at h
    split
    · unfold closeType
      split
      · exact .cons rfl h.outer.outer
      · exact h.outer
    · split <;> exact .cons rfl h.outer

/-- A statement opens no block that is passed over. -/
theorem Effect.unskipped (h : Effect set text state braces next)
    (hblocks : Unskipped state.blocks) : Unskipped next.blocks := by
  have houter : ∀ {t outer}, state.blocks = .type t :: outer →
      ∀ t', Unskipped (.type t' :: outer) := by
    intro t outer hopen t'
    rw [hopen] at hblocks
    exact .cons rfl hblocks.outer
  cases h with
  | close => exact unskipped_closeBlock hblocks
  | openSpace | openType => exact .cons rfl hblocks
  | addField field htype hfresh | addMethod method htype hhead hbodiless hfresh
  | openMethod method htype => exact houter htype.blocks _
  | openLocals line hmethod => exact houter hmethod.blocks _
  | addLocal var hlocals => exact houter hlocals.blocks _
  | placeLabel name line hmethod | addInstruction scope args line hmethod =>
    exact houter hmethod.blocks _
  | _ => exact hblocks

theorem isSkipping_of_blocks {block : Block} {outer : List Block}
    (h : state.blocks = block :: outer) : state.isSkipping = block.isSkipped := by
  rw [isSkipping, h]

theorem isSkipping_of_unskipped (h : Unskipped state.blocks) : state.isSkipping = false := by
  unfold isSkipping
  split
  · rename_i block outer hblocks
    rw [hblocks] at h
    exact h block (.head _)
  · rfl

/-- What holds along a parse of `text` that has reported no error: no
block is passed over and every brace so far has its partner. -/
structure Paired (text : List Char) (state : ParseState) : Prop where
  unskipped : Unskipped state.blocks
  passes : ∃ braces, Passes braces text state.cursor.rest
    ∧ Brace.depthBehind? 0 braces = some state.depth

theorem Paired.turn (h : Paired text state)
    (hturn : Turn set state braces next) : Paired text next := by
  obtain ⟨hunskipped, front, hpasses, hdepth⟩ := h
  refine ⟨?_, front ++ braces, hpasses.trans hturn.passes, ?_⟩
  · obtain ⟨_, htakes, heffect⟩ := hturn
    rw [← htakes.moved.blocks] at hunskipped
    exact heffect.unskipped hunskipped
  · rw [Brace.depthBehind?_append, hdepth]
    exact hturn.depth

theorem paired_run {fuel : Nat} (h : Paired text state)
    (herrors : (run set fuel state).log.errorCount
      = state.log.errorCount) : Paired text (run set fuel state) := by
  refine run_invariant ?_ ?_ ?_ h herrors
  · intro state line hstate
    obtain ⟨hunskipped, front, hpasses, hdepth⟩ := hstate
    refine ⟨hunskipped, front, ?_, hdepth⟩
    have htrivia := hpasses.trans state.cursor.passes_skipTrivia
    rwa [List.append_nil] at htrivia
  · exact fun state hstate => isSkipping_of_unskipped hstate.unskipped
  · exact fun state _ _ hstate hturn => hstate.turn hturn

-- ==== the end

theorem adds_closeUnclosed (state : ParseState) :
    Log.Adds Diagnostic.Plain state.log state.closeUnclosed.log := by
  unfold closeUnclosed
  split
  · exact Log.adds_of_reported rfl rfl
  · split
    · rw [log_closeBlock]
      exact Log.adds_of_reported rfl rfl
    · rw [log_closeBlock]
      exact Log.adds_report _ (Diagnostic.plain_messageWith _ (by decide))

/-- A block that was left open is an error, unless it was passed over. -/
theorem errorCount_lt_closeUnclosed {outer : List Block} (hblocks : state.blocks = block :: outer)
    (hblock : block.isSkipped = false) :
    state.log.errorCount < state.closeUnclosed.log.errorCount := by
  have hunclosed : ∃ place, block.unclosed? = some place := by
    cases block with
    | space => exact ⟨_, rfl⟩
    | skipped => cases hblock
    | type =>
      unfold Block.unclosed?
      simp only
      split
      · exact ⟨_, rfl⟩
      · split <;> exact ⟨_, rfl⟩
  obtain ⟨place, hplace⟩ := hunclosed
  unfold closeUnclosed
  rw [hblocks]
  simp only [hplace, log_closeBlock]
  exact Log.errorCount_lt_report _ rfl

theorem adds_closeAll (state : ParseState) :
    Log.Adds Diagnostic.Plain state.log state.closeAll.log := by
  unfold closeAll
  induction state.depth with
  | zero => exact Log.adds_of_reported rfl rfl
  | succ count ih => exact ih.trans (adds_closeUnclosed _)

/-- If closing reports nothing then no block was open. -/
theorem blocks_of_closeAll (hunskipped : Unskipped state.blocks)
    (h : state.closeAll.log.errorCount = state.log.errorCount) :
    state.blocks = [] := by
  rcases hblocks : state.blocks with _ | ⟨block, _⟩
  · rfl
  · have hfirst : ∀ count, state.closeUnclosed.log.errorCount
        ≤ (Nat.repeat closeUnclosed (count + 1) state).log.errorCount := by
      intro count
      induction count with
      | zero => exact Nat.le_refl _
      | succ count ih =>
        exact Nat.le_trans ih (adds_closeUnclosed _).errorCount_le
    have hpos : 0 < state.depth := by
      apply depth_pos
      rw [hblocks]
      exact List.cons_ne_nil _ _
    obtain ⟨count, hcount⟩ := Nat.exists_eq_succ_of_ne_zero (Nat.ne_of_gt hpos)
    have hle := hfirst count
    rw [closeAll, hcount] at h
    rw [h] at hle
    rw [hblocks] at hunskipped
    have hlt := errorCount_lt_closeUnclosed hblocks (hunskipped block (.head _))
    exact absurd hlt (Nat.not_lt.2 hle)

end ParseState

-- ==== the parse

/-- A parse without errors has none while it reads and none when it
closes what is still open. -/
theorem Program.errorCount_toEnd {program : Program}
    {set : InstructionSet} {source : String} {log : Log}
    (h : (program.parse set source log).log.errorCount = log.errorCount) :
    ((ParseState.ofSource program source log).toEnd set).log.errorCount
        = log.errorCount
      ∧ ((ParseState.ofSource program source log).toEnd set).closeAll.log.errorCount
        = ((ParseState.ofSource program source log).toEnd
          set).log.errorCount := by
  have hlow : log.errorCount ≤ ((ParseState.ofSource program source
      log).toEnd set).log.errorCount :=
    (ParseState.adds_run set _ (.ofSource program source log)).errorCount_le
  have hhigh := ((ParseState.ofSource program source log).toEnd set).adds_closeAll.errorCount_le
  change (ParseState.closeAll _).log.errorCount = _ at h
  omega

/-- The open blocks are in step with the braces. However many rounds of a
source have been read, the blocks are as deep as its braces up to there;
reading comes to the end of the source; and if it reports no error then
the braces of the source are balanced. -/
theorem Program.blocks_follow_braces (program : Program)
    (set : InstructionSet) (source : String) (log : Log) :
    (∀ rounds, ∃ consumed,
      source.toList = consumed ++ ((ParseState.ofSource program source
        log).run set rounds).cursor.rest
      ∧ ((ParseState.ofSource program source log).run set rounds).depth
        = Brace.depth consumed)
    ∧ ((ParseState.ofSource program source log).toEnd set).cursor.rest = []
    ∧ ((program.parse set source log).log.errorCount = log.errorCount →
      Brace.Balanced (Brace.listOf source.toList)) := by
  have hend : ((ParseState.ofSource program source log).toEnd set).cursor.rest = [] :=
    ParseState.rest_run set (Nat.lt_succ_self _)
  refine ⟨?_, hend, ?_⟩
  · intro rounds
    obtain ⟨braces, hpasses, hdepth⟩ := ParseState.follows_run set rounds
      (.ofSource program source log)
    obtain ⟨consumed, htext, hconsumed⟩ := hpasses.exists_consumed
    exact ⟨consumed, htext, hdepth.trans hconsumed.symm⟩
  · intro herrors
    obtain ⟨hread, hclosed⟩ := errorCount_toEnd herrors
    have hstart : ParseState.Paired source.toList (.ofSource program source log) :=
      ⟨fun _ => nofun, [], Passes.refl _, rfl⟩
    have hpaired : ParseState.Paired source.toList
        ((ParseState.ofSource program source log).toEnd set) := ParseState.paired_run hstart hread
    have hblocks := ParseState.blocks_of_closeAll hpaired.unskipped hclosed
    obtain ⟨braces, hpasses, hdepth⟩ := hpaired.passes
    have hzero : ((ParseState.ofSource program source log).toEnd set).depth = 0 := by
      rw [ParseState.depth_eq, hblocks]
      rfl
    rw [hend] at hpasses
    rw [hzero] at hdepth
    rw [hpasses.listOf_eq]
    exact Brace.balanced_of_depthBehind? hdepth

/-- Two blocks, one inside the other, and a brace that is no brace. -/
def Sample.nested : String := ".namespace A \x7b\n.type B \x7b ; \x7d\n\x7d\n\x7d\n"

/-- Behind two statements of the sample two blocks are open; no error is
reported, and the four braces that count are balanced. -/
theorem Sample.blocks_follow_braces_nested :
    ((ParseState.ofSource {} nested {}).run .standard 2).depth = 2
      ∧ (({} : Program).parse .standard nested {}).log.errorCount = 0
      ∧ Brace.listOf nested.toList
        = [.opening, .opening, .closing, .closing]
      ∧ Brace.Balanced (Brace.listOf nested.toList) := by
  have herrors : (({} : Program).parse .standard nested {}).log.errorCount = 0 := by
    rfl
  obtain ⟨-, -, hbalanced⟩ := Program.blocks_follow_braces {} .standard nested {}
  exact ⟨rfl, herrors, rfl, hbalanced herrors⟩

end StackAsm
