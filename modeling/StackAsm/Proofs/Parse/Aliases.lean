/-
Aliases in view. A text is read round by round, and what a round does to
the scope is one of a few steps (`ScopeStep`). An alias is declared in the
block that is open then and goes out of view when that block is closed;
what counts is how many blocks are open. So the aliases in view at a place
are those of the rounds before it whose block is still open there, the
last one first (`exists_later_of_level?`), and a type that is written there
takes them along (`scope_of_writes`).
-/
import StackAsm.Proofs.Parse.Origins
import StackAsm.Proofs.Parse.Specs
import StackAsm.Proofs.Program.Order

namespace StackAsm

-- ==== levels

namespace ScopeStack

variable {stack next : ScopeStack} {level : Nat}

/-- What is in view at a level: at the outermost one, or in the blocks
that are open up to that many. -/
def level? (stack : ScopeStack) (level : Nat) : Option ScopeView :=
  (stack.outer.reverse ++ [stack.view])[level]?

theorem level?_depth (stack : ScopeStack) : stack.level? stack.depth = some stack.view := by
  rw [stack.depth_eq, ← List.length_reverse]
  exact List.getElem?_concat_length

theorem le_depth_of_level? {view : ScopeView}
    (h : stack.level? level = some view) : level ≤ stack.depth := by
  have hlt := (List.getElem?_eq_some_iff.1 h).1
  rw [List.length_append, List.length_reverse, List.length_singleton, ← stack.depth_eq] at hlt
  omega

theorem level?_of_lt (h : level < stack.depth) :
    stack.level? level = stack.outer.reverse[level]? := by
  rw [stack.depth_eq, ← List.length_reverse] at h
  exact List.getElem?_append_left h

theorem depth_of_outer (h : next.outer = stack.outer) : next.depth = stack.depth := by
  rw [next.depth_eq, stack.depth_eq, h]

/-- If only what is in view innermost is changed, the levels around it are
as they were. -/
theorem level?_of_outer (houter : next.outer = stack.outer)
    {view : ScopeView} (h : next.level? level = some view) :
    stack.level? level = some view ∨ level = stack.depth ∧ view = next.view := by
  have hdepth := depth_of_outer houter
  have hle := le_depth_of_level? h
  by_cases hlt : level < stack.depth
  · rw [level?_of_lt (hdepth ▸ hlt), houter, ← level?_of_lt hlt] at h
    exact .inl h
  · have hlevel : level = next.depth := by omega
    rw [hlevel, level?_depth] at h
    cases h
    exact .inr ⟨hlevel.trans hdepth, rfl⟩

theorem level?_openBlock (segments : List String) (h : level ≤ stack.depth) :
    (stack.openBlock segments).level? level = stack.level? level := by
  rw [level?_of_lt (Nat.lt_succ_of_le h)]
  show (stack.view :: stack.outer).reverse[level]? = _
  rw [List.reverse_cons]
  rfl

theorem level?_leave (h : level ≤ stack.leave.depth) :
    stack.leave.level? level = stack.level? level := by
  unfold leave at h ⊢
  rcases stack.leave?_cases with ⟨-, hnone⟩ | ⟨left, hleft, houter, -⟩
  · rw [hnone]
    rfl
  · rw [hleft, Option.getD_some] at h ⊢
    have hlevel : level < stack.depth := by
      rw [stack.depth_eq, houter, List.length_cons, ← left.depth_eq]
      exact Nat.lt_succ_of_le h
    rw [level?_of_lt hlevel, houter, List.reverse_cons]
    rfl

/-- The name of an alias can be told from the full name. -/
theorem qualify_inj {name other : String}
    (h : stack.qualify name = stack.qualify other) : name = other := by
  unfold qualify at h
  split at h
  · exact h
  · exact String.append_right_inj _ |>.1 h

/-- What is known of a type where it is written: it is built in or is to
be looked up from what is visible there. -/
structure Written (stack : ScopeStack) (typePath : Option String) (spec : TypeSpec) : Prop where
  builtIn : ∀ symbol, spec.reference = .resolved symbol →
    isPrimitiveName symbol.name = true ∧ symbol = .primitive symbol.name
  pending : ∀ reference, spec.reference = .pending reference →
    reference.kind = .type ∧ isPrimitiveName reference.name = false
      ∧ reference.scope = stack.visible typePath

theorem Shows.written {typePath : Option String} {spec : TypeSpec}
    (h : stack.Shows typePath spec) (hsound : stack.Sound) :
    stack.Written typePath spec := by
  refine ⟨h.builtIn, fun reference href => ?_⟩
  have hshows := h.pending reference href
  have hscope := hsound.fresh _ hshows.kept
  rw [hshows.typePath] at hscope
  exact ⟨hshows.kind, hshows.plain, hscope⟩

end ScopeStack

-- ==== steps

/-- What a statement can do to the scope and to the aliases declared so
far. -/
inductive ScopeStep (stack : ScopeStack) (aliases : List TypeAlias) :
    ScopeStack → List TypeAlias → Prop where
  | stay : ScopeStep stack aliases stack aliases
  | addImport (path : String) : ScopeStep stack aliases (stack.addImport path) aliases
  | addAlias (name : String) (target : TypeSpec)
      (hname : Text.IsWord name) (hshows : stack.Shows none target) : ScopeStep stack aliases
        (stack.addAlias name target.reference.name) (⟨stack.qualify name, target⟩ :: aliases)
  | openBlock (segments : List String) : ScopeStep stack aliases (stack.openBlock segments) aliases
  | leave : ScopeStep stack aliases stack.leave aliases

namespace ScopeStep

variable {stack next : ScopeStack} {aliases more : List TypeAlias}

theorem of_enter {name : String} (rooted : Bool)
    (h : (if rooted then stack.enterRooted name else stack.enter name)
      = .ok next) : ScopeStep stack aliases next aliases := by
  obtain ⟨_, -, rfl⟩ := ScopeStack.exists_parts_of_enter h
  exact .openBlock _

/-- Aliases are added in front. -/
theorem suffix (h : ScopeStep stack aliases next more) : aliases <:+ more := by
  cases h with
  | addAlias => exact List.suffix_cons ..
  | _ => exact List.suffix_rfl

/-- What is in view at a level was in view there or at the innermost one,
up to an alias that is declared. -/
theorem level (h : ScopeStep stack aliases next more) {level : Nat}
    {view : ScopeView} (hview : next.level? level = some view) :
    (∃ old before, old ≤ level ∧ (old = level ∨ old = stack.depth)
      ∧ stack.level? old = some before ∧ view.aliases = before.aliases)
    ∨ (level = stack.depth ∧ next.depth = stack.depth ∧ ∃ name target,
      more = ⟨stack.qualify name, target⟩ :: aliases
        ∧ view.aliases
          = (name, target.reference.name) :: stack.view.aliases) := by
  cases h with
  | stay => exact .inl ⟨level, view, Nat.le_refl _, .inl rfl, hview, rfl⟩
  | addImport path =>
    have houter : (stack.addImport path).outer = stack.outer := by
      unfold ScopeStack.addImport
      split <;> rfl
    have haliases : (stack.addImport path).view.aliases = stack.view.aliases := by
      unfold ScopeStack.addImport
      split <;> rfl
    rcases ScopeStack.level?_of_outer houter hview with hold | ⟨hlevel, hview⟩
    · exact .inl ⟨level, view, Nat.le_refl _, .inl rfl, hold, rfl⟩
    · refine .inl ⟨level, stack.view, Nat.le_refl _, .inl rfl, ?_, ?_⟩
      · rw [hlevel, stack.level?_depth]
      · rw [hview, haliases]
  | addAlias name target =>
    rcases @ScopeStack.level?_of_outer stack (stack.addAlias name _) level
      rfl view hview with hold | ⟨hlevel, hview⟩
    · exact .inl ⟨level, view, Nat.le_refl _, .inl rfl, hold, rfl⟩
    · refine .inr ⟨hlevel, rfl, name, target, rfl, ?_⟩
      rw [hview]
      rfl
  | openBlock segments =>
    have hle := ScopeStack.le_depth_of_level? hview
    -- a new block starts with what was in view around it
    by_cases hold : level ≤ stack.depth
    · rw [ScopeStack.level?_openBlock segments hold] at hview
      exact .inl ⟨level, view, Nat.le_refl _, .inl rfl, hview, rfl⟩
    · have hlevel : level = (stack.openBlock segments).depth :=
        Nat.le_antisymm hle (Nat.lt_of_not_le hold)
      rw [hlevel, ScopeStack.level?_depth] at hview
      cases hview
      exact .inl ⟨stack.depth, stack.view, Nat.le_of_lt (Nat.lt_of_not_le hold), .inr rfl,
        stack.level?_depth, rfl⟩
  | leave =>
    rw [ScopeStack.level?_leave (ScopeStack.le_depth_of_level? hview)] at hview
    exact .inl ⟨level, view, Nat.le_refl _, .inl rfl, hview, rfl⟩

end ScopeStep

-- ==== rounds

namespace ParseState

variable {set : InstructionSet} {state next : ParseState} {text : List Char} {braces : List Brace}

theorem scope_closeBlock (state : ParseState) :
    ScopeStep state.scope state.aliases state.closeBlock.scope state.closeBlock.aliases := by
  unfold closeBlock
  split
  · exact .stay
  · exact .leave
  · exact .stay
  · split
    · unfold closeType
      split <;> exact .stay
    · split <;> exact .stay

/-- What a statement does to the scope. -/
theorem Effect.scopeStep (h : Effect set text state braces next) :
    ScopeStep state.scope state.aliases next.scope next.aliases := by
  cases h with
  | close => exact scope_closeBlock state
  | noteUsing path => exact .addImport path
  | noteAlias name target hspace hname hshows =>
    exact .addAlias name target hname hshows
  | openSpace rooted name line hspace henter => exact .of_enter rooted henter
  | _ => exact .stay

theorem aliases_closeBlock (state : ParseState) :
    state.closeBlock.program.aliases = state.program.aliases := by
  unfold closeBlock
  split
  · rfl
  · rfl
  · rfl
  · split
    · unfold closeType
      split
      · rfl
      · exact Program.aliases_addType ..
    · split <;> rfl

/-- The aliases of the program wait for the end of the text. -/
theorem Effect.program_aliases (h : Effect set text state braces next) :
    next.program.aliases = state.program.aliases := by
  cases h with
  | close => exact aliases_closeBlock state
  | noteExternal => exact Program.aliases_addExternal ..
  | _ => rfl

/-- A round without errors, as far as scopes and types go: reading may
renew the snapshot that is kept, then the scope takes one step, and types
that are new have the snapshot. -/
structure Round (state next : ParseState) : Prop where
  program : next.program.aliases = state.program.aliases
  step : ∃ kept, state.scope.MayKeep kept
    ∧ ScopeStep { state.scope with kept } state.aliases next.scope next.aliases
    ∧ ∀ spec ∈ next.specs, spec ∈ state.specs
      ∨ ∃ typePath, ScopeStack.Shows { state.scope with kept } typePath spec

theorem round_of_turn (h : Turn set state.atStatement braces next) : state.Round next := by
  obtain ⟨_, htakes, heffect⟩ := h
  obtain ⟨_, kept, hkept, rfl⟩ := htakes.moved
  exact ⟨heffect.program_aliases, kept, hkept, heffect.scopeStep,
    fun _ hspec => heffect.shows hspec⟩

theorem errorCount_le_run_succ (set : InstructionSet) (n : Nat) (start : ParseState) :
    (run set n start).log.errorCount ≤ (run set (n + 1) start).log.errorCount := by
  cases hend : (run set n start).cursor.skipTrivia.atEnd with
  | true =>
    exact Nat.le_of_eq (by rw [run_succ_of_end set hend])
  | false =>
    rw [run_succ_of_more set hend]
    exact (adds_advance set (run set n start).atStatement).errorCount_le

section Run

variable {start : ParseState} {before : List BranchFixes}
  {rounds n later : Nat} {name : String} {target : TypeSpec}

/-- Without errors at the end there were none on the way. -/
theorem errorCount_run_of_le
    (herrors : (run set rounds start).log.errorCount
      = start.log.errorCount) (hn : n ≤ rounds) :
    (run set n start).log.errorCount = start.log.errorCount := by
  have hlow := (adds_run set n start).errorCount_le
  have hhigh : (run set n start).log.errorCount ≤ (run set rounds start).log.errorCount := by
    clear herrors
    induction hn with
    | refl => exact Nat.le_refl _
    | step _ ih => exact Nat.le_trans ih (errorCount_le_run_succ ..)
  omega

-- ------------------------------------------------ aliases round by round

/-- Whether a round declares an alias: behind it there is a new record. -/
def DeclaresAlias (set : InstructionSet) (start : ParseState) (n : Nat)
    (name : String) (target : TypeSpec) : Prop :=
  (run set (n + 1) start).aliases
    = ⟨(run set n start).scope.qualify name, target⟩
      :: (run set n start).aliases

/-- Whether the block in which a round is read is still open in a later
one. -/
def StaysOpen (set : InstructionSet) (start : ParseState) (n later : Nat) :
    Prop := ∀ m, n < m → m ≤ later → (run set n start).scope.depth ≤ (run set m start).scope.depth

/-- The step that declares an alias. -/
theorem Round.addAlias (h : state.Round next) (halias : next.aliases
      = ⟨state.scope.qualify name, target⟩ :: state.aliases) :
    Text.IsWord name ∧ ∃ kept, state.scope.MayKeep kept
      ∧ ScopeStack.Shows { state.scope with kept } none target
      ∧ next.scope = ScopeStack.addAlias { state.scope with kept } name
        target.reference.name := by
  obtain ⟨kept, hkept, hstep, -⟩ := h.step
  have hlonger : next.aliases ≠ state.aliases := by
    intro hsame
    have hlength := congrArg List.length (halias.symm.trans hsame)
    rw [List.length_cons] at hlength
    omega
  generalize next.aliases = more, next.scope = scope at halias hstep hlonger ⊢
  cases hstep with
  | addAlias other found hname hshows =>
    injection halias with hentry
    injection hentry with hqualified htarget
    subst htarget
    obtain rfl := ScopeStack.qualify_inj hqualified
    exact ⟨hname, kept, hkept, hshows, rfl⟩
  | _ => exact absurd rfl hlonger

theorem StaysOpen.succ (h : StaysOpen set start n later)
    (hdepth : (run set n start).scope.depth
      ≤ (run set (later + 1) start).scope.depth) :
    StaysOpen set start n (later + 1) := by
  intro m hafter hle
  by_cases hm : m = later + 1
  · rw [hm]
    exact hdepth
  · exact h m hafter (by omega)

/-- An alias by which a later round reads a name: it is declared before,
its block is still open then, and no later alias of that name is in an
open block. -/
structure NearestAlias (set : InstructionSet) (start : ParseState)
    (n later : Nat) (name : String) (target : TypeSpec) : Prop where
  before : n < later
  declares : DeclaresAlias set start n name target
  staysOpen : StaysOpen set start n later
  nearest : ∀ m found, n < m → m < later →
    DeclaresAlias set start m name found → ¬ StaysOpen set start m later

/-- That an alias is the nearest one can be checked round by round:
nothing is declared in between in a block that is still open. -/
theorem nearestAlias_of_check (h : n < later
      ∧ (run set (n + 1) start).aliases
        = ⟨(run set n start).scope.qualify name, target⟩
          :: (run set n start).aliases
      ∧ (∀ m < later + 1, n < m → (run set n start).scope.depth ≤ (run set m start).scope.depth)
      ∧ ∀ m < later, n < m → (run set m start).scope.depth ≤ (run set later start).scope.depth →
        (run set (m + 1) start).aliases = (run set m start).aliases) :
    NearestAlias set start n later name target := by
  obtain ⟨hbefore, halias, hopen, hnone⟩ := h
  refine ⟨hbefore, halias, fun m hafter hle =>
    hopen m (Nat.lt_succ_of_le hle) hafter, ?_⟩
  intro m found hafter hlt hfound hm
  unfold DeclaresAlias at hfound
  rw [hnone m hlt hafter (hm later hlt (Nat.le_refl _))] at hfound
  have hlength := congrArg List.length hfound
  rw [List.length_cons] at hlength
  omega

-- -------------------------------------------------- types round by round

/-- Whether a type is written in a round: it is there behind it and was
not before. A type that is to be looked up has its line and column, so no
two of a text are the same. -/
def Writes (set : InstructionSet) (start : ParseState) (n : Nat) (spec : TypeSpec) : Prop :=
  spec ∈ (run set (n + 1) start).specs ∧ spec ∉ (run set n start).specs

/-- Nothing is written behind the end of the text. -/
theorem Writes.le {spec : TypeSpec} (h : Writes set start n spec) :
    n ≤ start.cursor.rest.length := by
  by_cases hn : n ≤ start.cursor.rest.length
  · exact hn
  · have hrest := rest_run set (Nat.lt_of_not_le hn)
    have hend : (run set n start).cursor.atEnd = true := by
      unfold Cursor.atEnd
      rw [hrest]
      rfl
    have hspecs : (run set (n + 1) start).specs = (run set n start).specs := by
      rw [run_succ_of_end set (by rwa [Cursor.skipTrivia_of_atEnd hend])]
      rfl
    exact absurd (hspecs ▸ h.1) h.2

-- -------------------------------------------------- runs without errors

variable (hstart : start.Coherent before)
  (herrors : (run set rounds start).log.errorCount = start.log.errorCount)

include hstart herrors

/-- A round of a parse without errors is a statement, unless the text is at
its end. -/
theorem run_succ_cases (hn : n < rounds) : run set (n + 1) start = { run set n start with
        cursor := (run set n start).cursor.skipTrivia }
      ∨ ∃ braces, Turn set (run set n start).atStatement braces (run set (n + 1) start) := by
  have hhere := errorCount_run_of_le herrors (Nat.le_of_lt hn)
  have hnext := errorCount_run_of_le herrors hn
  cases hend : (run set n start).cursor.skipTrivia.atEnd with
  | true => exact .inl (run_succ_of_end set hend)
  | false =>
    rw [run_succ_of_more set hend] at hnext ⊢
    have hnested : Block.Nested (run set n start).atStatement.blocks := (hstart.run hhere).nested
    exact .inr (turn_of_advance (isSkipping_of_unskipped hnested.unskipped)
      (hnext.trans hhere.symm))

/-- The rounds of a parse without errors. -/
theorem round_run (hn : n < rounds) : (run set n start).Round (run set (n + 1) start) := by
  rcases run_succ_cases hstart herrors hn with hend | ⟨_, hturn⟩
  · rw [hend]
    exact ⟨rfl, _, .inl rfl, .stay, fun _ hspec => .inl hspec⟩
  · exact round_of_turn hturn

theorem program_aliases_run (hn : n ≤ rounds) :
    (run set n start).program.aliases = start.program.aliases := by
  induction n with
  | zero => rfl
  | succ n ih =>
    rw [(round_run hstart herrors hn).program]
    exact ih (Nat.le_of_lt hn)

theorem suffix_run (hn : n ≤ later) (hlater : later ≤ rounds) :
    (run set n start).aliases <:+ (run set later start).aliases := by
  induction hn with
  | refl => exact List.suffix_rfl
  | step _ ih =>
    obtain ⟨_, -, hstep, -⟩ := (round_run hstart herrors hlater).step
    exact (ih (Nat.le_of_lt hlater)).trans hstep.suffix

/-- In a round, too, the snapshot that is kept is what is visible. -/
theorem sound_run (hn : n < rounds) {kept : Option Scope}
    (hkept : (run set n start).scope.MayKeep kept) :
    ScopeStack.Sound { (run set n start).scope with kept } :=
  (hstart.run (errorCount_run_of_le herrors (Nat.le_of_lt hn))).scope.mayKeep hkept

/-- The record of an alias has its place for good. -/
theorem record_of_declares (hn : n < rounds) (h : DeclaresAlias set start n name target) :
    (run set rounds start).aliases.reverse[ (run set n start).aliases.length]?
      = some ⟨(run set n start).scope.qualify name, target⟩ := by
  obtain ⟨_, hfront⟩ := suffix_run hstart herrors hn (Nat.le_refl rounds)
  rw [← hfront, h, List.reverse_append, List.reverse_cons, List.append_assoc, ← List.length_reverse,
    List.getElem?_append_right (Nat.le_refl _), Nat.sub_self]
  rfl

/-- From the round that declares an alias on, the alias is in view in its
block and further in, and the aliases in front of it are declared in
between, in blocks that are still open. -/
theorem exists_later_of_level? (halias : DeclaresAlias set start n name target) (hlater : n < later)
    (hrounds : later ≤ rounds) (hopen : StaysOpen set start n later)
    {level : Nat} {view : ScopeView} (hlevel : (run set n start).scope.depth ≤ level)
    (hview : (run set later start).scope.level? level = some view) :
    ∃ front, view.aliases = front ++ (name, target.reference.name)
        :: (run set n start).scope.view.aliases
      ∧ ∀ entry ∈ front, ∃ m found, n < m ∧ m < later
        ∧ DeclaresAlias set start m entry.1 found
        ∧ StaysOpen set start m later
        ∧ (run set m start).scope.depth ≤ level := by
  -- by induction on the later round, for every level: the last step may
  -- uncover a level that was not the innermost one
  induction hlater generalizing level view with
  | refl =>
    change (run set (n + 1) start).scope.level? level = some view at hview
    obtain ⟨-, kept, -, -, hscope⟩ := (round_run hstart herrors hrounds).addAlias halias
    have hdepth : (run set (n + 1) start).scope.depth = (run set n start).scope.depth := by
      rw [hscope]
      rfl
    have hle := ScopeStack.le_depth_of_level? hview
    obtain rfl : level = (run set (n + 1) start).scope.depth := by omega
    rw [ScopeStack.level?_depth] at hview
    cases hview
    refine ⟨[], ?_, fun entry hentry => nomatch hentry⟩
    rw [hscope]
    rfl
  | @step later hbefore ih =>
    change (run set (later + 1) start).scope.level? level = some view at hview
    have hhere := hopen later hbefore (Nat.le_succ _)
    have hprevious : StaysOpen set start n later := fun m hafter hle =>
      hopen m hafter (Nat.le_succ_of_le hle)
    have ih := @ih (Nat.le_of_lt hrounds) hprevious
    have hinner := ScopeStack.le_depth_of_level? hview
    obtain ⟨kept, -, hstep, -⟩ := (round_run hstart herrors hrounds).step
    rcases hstep.level hview with
      ⟨old, oldView, hle, hold, holdView, hsame⟩
      | ⟨hnow, hdepth, newName, newTarget, hmore, hnew⟩
    · have holdLevel : (run set n start).scope.depth ≤ old := by
        rcases hold with rfl | rfl
        · exact hlevel
        · exact hhere
      obtain ⟨front, hfront, hdeclared⟩ := ih holdLevel holdView
      refine ⟨front, hsame.trans hfront, fun entry hentry => ?_⟩
      obtain ⟨m, found, hafter, hlt, hfound, hm, hmlevel⟩ := hdeclared entry hentry
      exact ⟨m, found, hafter, Nat.lt_succ_of_lt hlt, hfound, hm.succ (by omega), by omega⟩
    · change level = (run set later start).scope.depth at hnow
      obtain ⟨front, hfront, hdeclared⟩ := ih hhere (ScopeStack.level?_depth _)
      refine ⟨(newName, newTarget.reference.name) :: front, ?_, fun entry hentry => ?_⟩
      · rw [List.cons_append, ← hfront]
        exact hnew
      · rcases List.mem_cons.1 hentry with rfl | hentry
        · exact ⟨later, newTarget, hbefore, Nat.lt_succ_self _, hmore, fun m hafter hle => by
              obtain rfl : m = later + 1 := by omega
              exact Nat.le_of_eq hdepth.symm,
            Nat.le_of_eq hnow.symm⟩
        · obtain ⟨m, found, hafter, hlt, hfound, hm, hmlevel⟩ := hdeclared entry hentry
          exact ⟨m, found, hafter, Nat.lt_succ_of_lt hlt, hfound, hm.succ (by omega), by omega⟩

/-- The nearest alias is the first one that is found. -/
theorem NearestAlias.find? (h : NearestAlias set start n later name target)
    (hlater : later ≤ rounds) :
    (run set later start).scope.view.aliases.find? (fun entry =>
      entry.1 == name) = some (name, target.reference.name) := by
  obtain ⟨front, haliases, hfront⟩ := exists_later_of_level? hstart herrors
    h.declares h.before hlater h.staysOpen
    (h.staysOpen later h.before (Nat.le_refl _)) (ScopeStack.level?_depth _)
  have hnone : front.find? (fun entry => entry.1 == name) = none := by
    rw [List.find?_eq_none]
    intro entry hentry hname
    obtain ⟨m, found, hafter, hlt, hfound, hopen, -⟩ := hfront entry hentry
    rw [eq_of_beq hname] at hfound
    exact h.nearest m found hafter hlt hfound hopen
  rw [haliases, List.find?_append, hnone, Option.none_or]
  exact List.find?_cons_of_pos (beq_self_eq_true name)

/-- A type has what is visible where it is written. -/
theorem scope_of_writes (hn : n < rounds) {spec : TypeSpec} (h : Writes set start n spec) :
    ∃ typePath, (run set n start).scope.Written typePath spec := by
  obtain ⟨_, hkept, -, hnew⟩ := (round_run hstart herrors hn).step
  have hsound := sound_run hstart herrors hn hkept
  rcases hnew spec h.1 with hold | ⟨typePath, hshows⟩
  · exact absurd hold h.2
  · have hwritten := hshows.written hsound
    exact ⟨typePath, hwritten.builtIn, hwritten.pending⟩

/-- So has the target of an alias. -/
theorem scope_of_declares (hn : n < rounds) (h : DeclaresAlias set start n name target) :
    Text.IsWord name ∧ (run set n start).scope.Written none target := by
  obtain ⟨hname, _, hkept, hshows, -⟩ := (round_run hstart herrors hn).addAlias h
  have hsound := sound_run hstart herrors hn hkept
  have hwritten := hshows.written hsound
  exact ⟨hname, hwritten.builtIn, hwritten.pending⟩

end Run

end ParseState

end StackAsm
