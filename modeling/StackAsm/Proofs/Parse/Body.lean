/-
Inside the body of a method. Of all open types only the innermost can have
a method open, so at every place of a text there is at most one body one
is inside of, with a block of locals or skipped blocks open in it
(`Block.Inside`). What a round can do to that body is read backwards: if
one is inside a body behind the round, then the round has just opened it,
or one was inside it before and the round is one of a few steps
(`BodyStep`) or a line that is followed brace by brace.
-/
import StackAsm.Proofs.Parse.Recovery

namespace StackAsm

/-- How many blocks of its body a method has open itself. -/
def OpenMethod.depth (m : OpenMethod) : Nat := if m.localsLine.isSome then 1 else 0

theorem OpenMethod.depth_of_none {m : OpenMethod} (h : m.localsLine = none) : m.depth = 0 := by
  rw [depth, h]
  rfl

theorem OpenMethod.depth_of_isSome {m : OpenMethod}
    (h : m.localsLine.isSome = true) : m.depth = 1 :=
  if_pos h

/-- Whether two methods agree on their labels and their size. -/
structure OpenMethod.Agrees (m after : OpenMethod) : Prop where
  labels : after.labels = m.labels
  size : after.size = m.size

namespace Block

/-- Whether one is inside the body of that method, with so many blocks of
the body open. -/
inductive Inside : List Block → Nat → OpenMethod → Prop where
  | method {t : OpenType} {outer : List Block} {m : OpenMethod}
      (hmethod : t.method = some m) : Inside (.type t :: outer) m.depth m
  | skipped {line depth : Nat} {blocks : List Block} {m : OpenMethod}
      (hinside : Inside blocks depth m) : Inside (.skipped line :: blocks) (depth + 1) m

/-- Whether none of the types has a method open. -/
def Shut (blocks : List Block) : Prop := ∀ t, .type t ∈ blocks → t.method = none

variable {blocks outer : List Block} {depth : Nat} {m : OpenMethod}

theorem Shut.cons {block : Block} (hblock : ∀ t, block = .type t →
    t.method = none) (h : Shut outer) : Shut (block :: outer) := by
  intro t ht
  rcases List.mem_cons.1 ht with ht | ht
  · exact hblock t ht.symm
  · exact h t ht

theorem Shut.of_sublist (h : Shut outer) (hsub : blocks.Sublist outer) :
    Shut blocks := fun t ht => h t (hsub.subset ht)

theorem Shut.not_inside (h : Shut blocks) : ¬ Inside blocks depth m := by
  intro hinside
  induction hinside with
  | method hmethod =>
    rw [h _ (.head _)] at hmethod
    cases hmethod
  | skipped hinside ih => exact ih fun t ht => h t (.tail _ ht)

end Block

namespace ParseState

open Block

variable {set : InstructionSet} {text : List Char} {state next : ParseState}
  {braces : List Brace} {depth last : Nat} {m after : OpenMethod}
  {outer : List Block} {t : OpenType}

-- ==== single

/-- Whether no type around the innermost block has a method open. -/
def Single (state : ParseState) : Prop := Shut state.blocks.tail

theorem Single.cons {block : Block} (h : state.Single)
    (hblocks : state.blocks = block :: outer) : Shut outer := by
  unfold Single at h
  rwa [hblocks] at h

/-- Skipped blocks are no types. -/
theorem Single.beneath (h : state.Single) : state.beneath.Single := by
  refine Shut.of_sublist h ?_
  show (state.blocks.dropWhile Block.isSkipped).tail.Sublist _
  cases state.blocks with
  | nil => exact .slnil
  | cons =>
    rw [List.dropWhile_cons]
    split
    · exact (List.tail_sublist _).trans (List.dropWhile_sublist _)
    · exact .refl _

theorem Single.closeBlock (h : state.Single) : state.closeBlock.Single := by
  unfold ParseState.closeBlock
  split
  · exact h
  · rename_i line outer hblocks
    exact (h.cons hblocks).of_sublist (List.tail_sublist _)
  · rename_i line outer hblocks
    exact (h.cons hblocks).of_sublist (List.tail_sublist _)
  · rename_i t outer hblocks
    have houter := h.cons hblocks
    split
    · unfold closeType
      split
      · exact houter.of_sublist (List.sublist_cons_self ..)
      · exact houter.of_sublist (List.tail_sublist _)
    · split <;> exact houter

theorem InSpace.shut (h : state.InSpace) (hsingle : state.Single) : Shut state.blocks := by
  unfold InSpace at h
  unfold Single at hsingle
  cases hblocks : state.blocks with
  | nil => exact fun _ => nofun
  | cons block =>
    rw [hblocks] at h hsingle
    obtain ⟨_, rfl⟩ := h block rfl
    exact hsingle.cons fun _ => nofun

theorem InType.shut (h : state.InType t outer) (hsingle : state.Single) : Shut state.blocks := by
  rw [h.blocks]
  refine (hsingle.cons h.blocks).cons ?_
  rintro _ ⟨⟩
  exact h.method

theorem Effect.single (h : Effect set text state braces next)
    (hsingle : state.Single) : next.Single := by
  cases h with
  | close => exact hsingle.closeBlock
  | openSpace rooted name line hspace => exact hspace.shut hsingle
  | openType name attrs line hplace =>
    rcases hplace with hspace | ⟨_, _, htype⟩
    · exact hspace.shut hsingle
    · exact htype.shut hsingle
  | addField field htype hfresh | addMethod method htype hhead hbodiless hfresh
  | openMethod method htype => exact hsingle.cons htype.blocks
  | openLocals line hmethod =>
    exact hsingle.cons hmethod.blocks
  | addLocal var hlocals =>
    exact hsingle.cons hlocals.blocks
  | placeLabel name line hmethod | addInstruction scope args line hmethod =>
    exact hsingle.cons hmethod.blocks
  | _ => exact hsingle

theorem single_closeBlock (h : state.beneath.Single) : state.closeBlock.beneath.Single := by
  cases hskip : state.isSkipping with
  | true =>
    rw [closeBlock_of_skipping hskip]
    exact h
  | false =>
    rw [beneath_of_not_skipping hskip] at h
    exact h.closeBlock.beneath

/-- Beneath its skipped blocks every parse has at most one method open. -/
theorem lasting_single (set : InstructionSet) : Lasting set fun state => state.beneath.Single where
  moved := by
    rintro state next ⟨_, _, -, rfl⟩ h
    exact h
  logged log h := h
  effect := by
    intro state next text braces hskip heffect h
    rw [beneath_of_not_skipping hskip] at h
    exact (heffect.single h).beneath
  announced := by
    intro state t outer m hmethod h
    rw [beneath_of_not_skipping (isSkipping_of_blocks hmethod.blocks)] at h
    exact Single.beneath (h.cons hmethod.blocks)
  skipped line h := h
  closed := single_closeBlock

-- ==== steps

/-- What one statement does in the body of a method, from `text` to
`rest`: so many blocks of the body are open before and behind it. -/
inductive BodyStep (text rest : List Char) (m after : OpenMethod) :
    List Brace → Nat → Nat → Prop where
  | close {depth : Nat} (htext : text = '\x7d' :: rest) (hsame : m.Agrees after) :
      BodyStep text rest m after [.closing] (depth + 1) depth
  | openLocals (hbrace : Silent text ('\x7b' :: rest))
      (hsame : m.Agrees after) : BodyStep text rest m after [.opening] 0 1
  | inLocals (hstep : InStep text rest) (hsame : m.Agrees after) : BodyStep text rest m after [] 1 1
  | label {name : String} {line : Nat} (hlabel : LabelAt text name rest)
      (hplaced : m.placeLabel name line = .ok after) : BodyStep text rest m after [] 0 0
  | instruction (hsilent : Silent text rest) (hlabels : after.labels = m.labels)
      (hsize : after.size = m.size + 1) : BodyStep text rest m after [] 0 0

theorem BodyStep.depthBehind? {rest : List Char}
    (h : BodyStep text rest m after braces depth last) :
    Brace.depthBehind? depth braces = some last := by
  cases h with
  | _ => rfl

theorem InMethod.inside (h : state.InMethod t outer m) : Inside state.blocks 0 m := by
  rw [h.blocks, ← m.depth_of_none h.localsLine]
  exact .method h.method

theorem InLocals.inside (h : state.InLocals t outer m) : Inside state.blocks 1 m := by
  rw [h.blocks, ← m.depth_of_isSome h.localsLine]
  exact .method h.method

/-- Behind a closing brace one is inside a body only if the brace closes a
block of it. -/
theorem inside_of_closeBlock (hsingle : state.beneath.Single)
    (h : Inside state.closeBlock.blocks depth after) :
    ∃ m, Inside state.blocks (depth + 1) m ∧ m.Agrees after := by
  have hshut : ∀ {block outer}, state.blocks = block :: outer →
      block.isSkipped = false → Shut outer := by
    intro block outer hblocks hblock
    rw [beneath_of_not_skipping ((isSkipping_of_blocks hblocks).trans hblock)] at hsingle
    exact hsingle.cons hblocks
  unfold closeBlock at h
  split at h
  · rename_i hblocks
    rw [hblocks] at h
    cases h
  · rename_i line outer hblocks
    exact ((hshut hblocks rfl).not_inside h).elim
  · rename_i line outer hblocks
    rw [hblocks]
    exact ⟨after, .skipped h, rfl, rfl⟩
  · rename_i t outer hblocks
    have houter := hshut hblocks rfl
    split at h
    · unfold closeType at h
      split at h
      · rename_i parent rest
        cases h with
        | method hmethod =>
          rw [houter parent (.head _)] at hmethod
          cases hmethod
      · exact (houter.not_inside h).elim
    · rename_i m hm
      split at h
      · rename_i hlocals
        have hbefore : Inside (.type t :: outer) 1 m := by
          rw [← m.depth_of_isSome hlocals]
          exact .method hm
        cases h with
        | method hmethod =>
          cases hmethod
          rw [hblocks]
          exact ⟨m, hbefore, rfl, rfl⟩
      · cases h with
        | method hmethod => cases hmethod

/-- Behind a line that is passed over one is inside a body only if its
braces close no more than they may. -/
theorem inside_of_followBraces {line : Nat} (hsingle : state.beneath.Single)
    (h : Inside (braces.foldl (followBrace line) state).blocks last after) :
    ∃ depth m, Inside state.blocks depth m ∧ m.Agrees after
      ∧ Brace.depthBehind? depth braces = some last := by
  induction braces generalizing state with
  | nil => exact ⟨last, after, h, ⟨rfl, rfl⟩, rfl⟩
  | cons brace braces ih =>
    cases brace with
    | opening =>
      obtain ⟨depth, m, hinside, hsame, hdepth⟩ := @ih (followBrace line state .opening) hsingle h
      cases hinside with
      | skipped hinside => exact ⟨_, m, hinside, hsame, hdepth⟩
    | closing =>
      obtain ⟨depth, _, hinside, hsame, hdepth⟩ := ih (single_closeBlock hsingle) h
      obtain ⟨m, hbefore, hclosed⟩ := inside_of_closeBlock hsingle hinside
      refine ⟨depth + 1, m, hbefore, ⟨?_, ?_⟩, hdepth⟩
      · exact hsame.labels.trans hclosed.labels
      · exact hsame.size.trans hclosed.size

/-- Whether the body of a method was opened just now: from `text` on there
is nothing before its brace, and its labels are those ahead. -/
structure Opened (text : List Char) (cur : Cursor) (after : OpenMethod)
    (braces : List Brace) (depth : Nat) : Prop where
  brace : Passes [] text ('\x7b' :: cur.rest)
  start : ∃ method, after = .start method cur.labelsAhead
  braces : braces = [.opening]
  depth : depth = 0

/-- If one is inside a body behind a statement, then the statement opens
it or is a step in it. -/
theorem Effect.inside (heffect : Effect set text state braces next)
    (hsingle : state.beneath.Single) (hskip : state.isSkipping = false)
    (h : Inside next.blocks last after) :
    Opened text next.cursor after braces last
      ∨ ∃ depth m, Inside state.blocks depth m
        ∧ BodyStep text next.cursor.rest m after braces depth last := by
  have hshut := hsingle
  rw [beneath_of_not_skipping hskip] at hshut
  rw [heffect.cursor]
  cases heffect with
  | close hopen htext =>
    obtain ⟨m, hinside, hsame⟩ := inside_of_closeBlock hsingle h
    exact .inr ⟨_, m, hinside, .close htext hsame⟩
  -- at the level of namespaces no body is open
  | noteImport wanted hspace | noteUsing path hspace | noteAlias name target hspace
  | noteExternal path hspace => exact ((hspace.shut hshut).not_inside h).elim
  | openSpace => cases h
  | openType =>
    cases h with
    | method hmethod => cases hmethod
  | addField field htype =>
    cases h with
    | method hmethod =>
      rw [htype.method] at hmethod
      cases hmethod
  | addMethod method htype =>
    cases h with
    | method hmethod =>
      rw [htype.method] at hmethod
      cases hmethod
  | openMethod method htype hhead hfresh hbrace =>
    cases h with
    | method hmethod =>
      cases hmethod
      exact .inl ⟨hbrace, ⟨method, rfl⟩, rfl, rfl⟩
  | openLocals line hmethod hseen hempty hbrace =>
    cases h with
    | method hafter =>
      cases hafter
      exact .inr ⟨0, _, hmethod.inside, .openLocals hbrace ⟨rfl, rfl⟩⟩
  | passComma hlocals hstep =>
    rw [hlocals.blocks] at h
    cases h with
    | method hafter =>
      obtain rfl := Option.some.inj (hlocals.method.symm.trans hafter)
      rw [OpenMethod.depth_of_isSome hlocals.localsLine]
      exact .inr ⟨1, _, hlocals.inside, .inLocals hstep ⟨rfl, rfl⟩⟩
  | @addLocal t outer m var hlocals hfresh hroom hstep =>
    cases h with
    | method hafter =>
      cases hafter
      have hdepth : (m.setLocals (m.locals ++ [var])).depth = 1 :=
        OpenMethod.depth_of_isSome hlocals.localsLine
      rw [hdepth]
      exact .inr ⟨1, m, hlocals.inside, .inLocals hstep ⟨rfl, rfl⟩⟩
  | @placeLabel t outer m placed name line hmethod hplaced hlabel =>
    cases h with
    | method hafter =>
      cases hafter
      rw [OpenMethod.depth_of_none ((localsLine_placeLabel hplaced).trans hmethod.localsLine)]
      exact .inr ⟨0, m, hmethod.inside, .label hlabel hplaced⟩
  | @addInstruction t outer m form operands implicit log scope args line
      hmethod hform hread hlog hsilent =>
      cases h with
      | method hafter =>
        cases hafter
        rw [OpenMethod.depth_of_none (Eq.trans (localsLine_addInstruction ..) hmethod.localsLine)]
        exact .inr ⟨0, m, hmethod.inside, .instruction hsilent rfl rfl⟩

end ParseState

end StackAsm
