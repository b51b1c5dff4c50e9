/-
Towers: types nested in each other, so deep as one likes. Any of them is
read and linked without an error (`Tower.link_sources`): a type is refused
only for a full name that was declared before, and each of a tower has a
longer name than the one around it. Readers of a container stop at a
depth, so towers tell what is written from what can be read.
-/
import StackAsm.Proofs.Build.RootOrder

namespace StackAsm

open Parse ParseState

-- ==== towers

namespace Tower

/-- So many types, each but the first in the one before it. -/
def types : Nat → List TypeDecl
  | 0 => []
  | n + 1 => [{ name := "A", nested := types n, line := 1 }]

def program (n : Nat) : Program where
  namespaces := [⟨"", types n⟩]

def opening : List Char := ".type A \x7b".toList

/-- The source of `types n`, and a text behind it. -/
def text : Nat → List Char → List Char
  | 0, rest => rest
  | n + 1, rest => opening ++ text n ('\x7d' :: rest)

/-- A file with that source. -/
def sources (n : Nat) : SourceSet :=
  (SourceTexts.ofFiles [("main.casm", String.ofList (text n []))]).sources

-- ------------------------------------------------------------- reading

section Read

variable {set : InstructionSet} {state : ParseState} {rest : List Char}

/-- Whether a type can be declared here. -/
def Ready (state : ParseState) : Prop := state.blocks = [] ∨ ∃ t outer, state.InType t outer

/-- The statement's end, where its brace was passed. -/
def behind (state : ParseState) (count : Nat) (rest : List Char) : ParseState :=
  { state with
    cursor := ⟨rest, ⟨state.cursor.line, state.cursor.column + count⟩⟩
    log := state.log.atLine state.cursor.line }

/-- The state in which a type was opened. -/
def opened (state : ParseState) (line : Nat) : ParseState :=
  { state with
    declared := fullName state "A" :: state.declared
    blocks := .type ⟨{ name := "A", line }, fullName state "A",
      state.scope.path, none⟩ :: state.blocks }

theorem run_openType {line : Nat} (hfresh : fullName state "A" ∉ state.declared)
    (hnone : state.program.namespaces = []) :
    (openType "A" {} line).run state = .ok () (opened state line) := by
  have hfind : state.program.find? (fullName state "A") = none := by
    rw [Program.find?, hnone]
    rfl
  unfold openType
  rw [run_get_bind, if_neg]
  · rfl
  · simp [hfresh, hfind]

theorem run_statement (hready : Ready state) :
    (statement set).run (behind state 0 (opening ++ rest))
      = (openType "A" {} state.cursor.line).run (behind state 9 rest) := by
  obtain ⟨_, _, _, _, _, _, _, _⟩ := state
  rcases hready with hblocks | ⟨⟨_, _, _, _⟩, _, hblocks, hmethod⟩
  · cases hblocks
    rfl
  · cases hblocks
    cases hmethod
    rfl

theorem run_opening (hready : Ready state) (hrest : state.cursor.rest = opening ++ rest)
    (hfresh : fullName state "A" ∉ state.declared)
    (hnone : state.program.namespaces = []) (fuel : Nat) :
    run set (fuel + 1) state = run set fuel (opened (behind state 9 rest) state.cursor.line) := by
  have hround : run set (fuel + 1) state
      = run set fuel (advance set (behind state 0 (opening ++ rest))) := by
    obtain ⟨⟨_, _⟩, _, _, _, _, _, _, _⟩ := state
    cases hrest
    rfl
  have hskip : (behind state 0 (opening ++ rest)).isSkipping = false := by
    unfold isSkipping
    rcases hready with hblocks | ⟨_, _, hblocks, -⟩
    · rw [behind, hblocks]
    · rw [behind, hblocks]
      rfl
  have hopen : (openType "A" {} state.cursor.line).run
      (behind state 9 rest) = .ok () (opened (behind state 9 rest)
        state.cursor.line) := run_openType hfresh hnone
  rw [hround, advance, hskip, run_statement hready, hopen]
  rfl

theorem run_closing {t : OpenType} {outer : List Block} (htype : state.InType t outer)
    (hrest : state.cursor.rest = '\x7d' :: rest) (fuel : Nat) :
    run set (fuel + 1) state = run set fuel ((behind state 1 rest).closeType t outer) := by
  obtain ⟨⟨_, _⟩, _, _, _, _, _, _, _⟩ := state
  obtain ⟨_, _, _, _⟩ := t
  obtain ⟨hblocks, hmethod⟩ := htype
  cases hrest
  cases hblocks
  cases hmethod
  rfl

/-- What opening and closing types leave alone. -/
def aside (state : ParseState) : ScopeStack × List TypeAlias × List Import
    × List BranchFixes × List Diagnostic :=
  (state.scope, state.aliases, state.output.imports, state.output.fixes, state.log.reported)

/-- So many rounds lead to a state, past nothing but types. -/
structure Reaches (set : InstructionSet) (state : ParseState)
    (rounds : Nat) (next : ParseState) (rest : List Char) : Prop where
  run : ∀ fuel, ParseState.run set (fuel + rounds) state = ParseState.run set fuel next
  rest : next.cursor.rest = rest
  line : next.cursor.line = state.cursor.line
  aside : aside next = aside state

theorem Reaches.trans {middle next : ParseState} {rounds later : Nat}
    {rest' : List Char} (hfirst : Reaches set state rounds middle rest)
    (hsecond : Reaches set middle later next rest') :
    Reaches set state (later + rounds) next rest' where
  run fuel := by
    rw [← Nat.add_assoc, hfirst.run, hsecond.run]
  rest := hsecond.rest
  line := hsecond.line.trans hfirst.line
  aside := hsecond.aside.trans hfirst.aside

/-- Inside a type, nested types are added to it. -/
def Inside (set : InstructionSet) (n : Nat) : Prop :=
  ∀ {state : ParseState} {t : OpenType} {outer : List Block}
    {rest : List Char}, state.InType t outer →
    state.cursor.rest = text n rest → state.cursor.line = 1 →
    (∀ name ∈ state.declared, name.length ≤ t.full.length) → state.program.namespaces = [] →
    ∃ next, Reaches set state (2 * n) next rest
      ∧ next.InType { t with decl := { t.decl with
          nested := t.decl.nested ++ types n } } outer
      ∧ next.program = state.program

theorem reaches_closing {t : OpenType} {outer : List Block} (htype : state.InType t outer)
    (hrest : state.cursor.rest = '\x7d' :: rest) :
    Reaches set state 1 ((behind state 1 rest).closeType t outer) rest := by
  refine ⟨run_closing htype hrest, ?_, ?_, ?_⟩ <;>
  · unfold closeType
    split <;> rfl

/-- A type with nested types is handed over when it is closed. -/
theorem reaches_type {n : Nat} (hinside : Inside set n)
    (hready : Ready state) (hrest : state.cursor.rest = text (n + 1) rest)
    (hline : state.cursor.line = 1)
    (hshort : ∀ name ∈ state.declared, name.length < (fullName state "A").length)
    (hnone : state.program.namespaces = []) :
    ∃ last full, Reaches set state (2 * (n + 1))
        (closeType last ⟨{ name := "A", nested := types n, line := 1 },
          full, state.scope.path, none⟩ state.blocks) rest
      ∧ last.program = state.program := by
  have hfresh : fullName state "A" ∉ state.declared := fun hmem => Nat.lt_irrefl _ (hshort _ hmem)
  let first := opened (behind state 9 (text n ('\x7d' :: rest))) 1
  have hopening : Reaches set state 1 first (text n ('\x7d' :: rest)) := by
    refine ⟨fun _ => ?_, rfl, rfl, rfl⟩
    rw [run_opening hready hrest hfresh hnone, hline]
  have hfirst : first.InType ⟨{ name := "A", line := 1 },
      fullName state "A", state.scope.path, none⟩ state.blocks := ⟨rfl, rfl⟩
  have hnames : ∀ name ∈ first.declared, name.length ≤ (fullName state "A").length := by
    intro name hname
    rcases List.mem_cons.1 hname with rfl | hname
    · exact Nat.le_refl _
    · exact Nat.le_of_lt (hshort name hname)
  obtain ⟨middle, hmiddle, htype, hprogram⟩ := hinside hfirst hopening.rest hline hnames hnone
  refine ⟨behind middle 1 rest, fullName state "A", ?_, hprogram⟩
  have hreaches := (hopening.trans hmiddle).trans (reaches_closing htype hmiddle.rest)
  rw [show 1 + (2 * n + 1) = 2 * (n + 1) by omega] at hreaches
  exact hreaches

theorem length_lt_join (outer : String) : outer.length < (Text.join outer "A").length := by
  by_cases hempty : outer = ""
  · rw [hempty]
    decide
  · rw [Text.join_of_ne_empty hempty, String.length_append, String.length_append, Nat.add_assoc]
    exact Nat.lt_add_of_pos_right (by decide)

theorem inside (set : InstructionSet) (n : Nat) : Inside set n := by
  induction n with
  | zero =>
    intro state t outer rest htype hrest _ _ _
    refine ⟨state, ⟨fun _ => rfl, hrest, rfl, rfl⟩, ?_, rfl⟩
    obtain ⟨⟨name, _, _, _, _, _⟩, full, _, _⟩ := t
    rw [types, List.append_nil]
    exact htype
  | succ n ih =>
    intro state t outer rest htype hrest hline hshort hnone
    have hfull : fullName state "A" = Text.join t.full "A" := by
      unfold fullName typePath
      rw [htype.blocks]
      rfl
    have hlonger := length_lt_join t.full
    obtain ⟨_, full, hreaches, hprogram⟩ := reaches_type ih
      (.inr ⟨t, outer, htype⟩) hrest hline (by
        intro name hname
        rw [hfull]
        exact Nat.lt_of_le_of_lt (hshort name hname) hlonger) hnone
    rw [htype.blocks] at hreaches
    exact ⟨_, hreaches, ⟨rfl, htype.method⟩, hprogram⟩

theorem length_text (n : Nat) (rest : List Char) : (text n rest).length = 10 * n + rest.length := by
  induction n generalizing rest with
  | zero => rw [text, Nat.mul_zero, Nat.zero_add]
  | succ n ih =>
    have hopening : opening.length = 9 := by decide
    rw [text, List.length_append, ih, hopening, List.length_cons]
    omega

theorem toEnd_text (set : InstructionSet) (n : Nat) (log : Log) :
    ∃ final, toEnd set (ofSource {} (String.ofList (text (n + 1) [])) log)
        = final
      ∧ final.blocks = [] ∧ final.program = program (n + 1)
      ∧ aside final = ({}, [], [], [], log.reported) := by
  let start := ofSource {} (String.ofList (text (n + 1) [])) log
  have hrest : start.cursor.rest = text (n + 1) [] := String.toList_ofList
  obtain ⟨last, _, hreaches, hprogram⟩ := reaches_type (inside set n)
    (.inl rfl) hrest rfl nofun rfl
  -- Every round passes a character, so there are rounds enough.
  have hfuel : start.cursor.rest.length + 1 = 8 * (n + 1) + 1 + 2 * (n + 1) := by
    rw [hrest, length_text, List.length_nil]
    omega
  refine ⟨_, rfl, ?_⟩
  rw [toEnd, hfuel, hreaches.run, run_of_end]
  · refine ⟨rfl, ?_, hreaches.aside⟩
    show last.program.addType _ _ = _
    rw [hprogram]
    rfl
  · rw [Cursor.skipTrivia, hreaches.rest]
    rfl

/-- The source of a tower is read as it was meant. -/
theorem parse_text (set : InstructionSet) (n : Nat) (log : Log) :
    ∃ parsed, ({} : Program).parse set (String.ofList (text (n + 1) [])) log = parsed
      ∧ parsed.program = program (n + 1)
      ∧ parsed.log.reported = log.reported
      ∧ parsed.output.imports = [] ∧ parsed.output.fixes = [] := by
  obtain ⟨_, hfinal, hblocks, hprogram, haside⟩ := toEnd_text set n log
  simp only [aside, Prod.mk.injEq] at haside
  obtain ⟨-, haliases, himports, hfixes, hreported⟩ := haside
  refine ⟨_, rfl, ?_⟩
  unfold Program.parse
  rw [hfinal, closeAll_of_closed hblocks]
  refine ⟨?_, hreported, congrArg List.reverse himports, congrArg List.reverse hfixes⟩
  simp only [hprogram, haliases]
  rfl

end Read

-- ------------------------------------------------------------- linking

theorem mapAllReferences_types (f : Reference → Reference) (n : Nat) :
    TypeDecl.mapAllReferences f (types n) = types n := by
  induction n with
  | zero => rfl
  | succ n ih =>
    rw [types, TypeDecl.mapAllReferences, TypeDecl.mapReferences, ih]
    rfl

theorem ownReferences_types (n : Nat) (outer : String) :
    (TypeDecl.walkAll outer (types n)).flatMap (fun entry => entry.2.ownReferences) = [] := by
  induction n generalizing outer with
  | zero => rfl
  | succ n ih =>
    rw [types, TypeDecl.walkAll, TypeDecl.walk, TypeDecl.walkAll,
      List.append_nil, List.flatMap_cons, ih]
    rfl

/-- A tower has no references. -/
theorem references_program (n : Nat) : (program n).references = [] := by
  have htypes : (program n).types = TypeDecl.walkAll "" (types n) := List.append_nil _
  rw [Program.references, htypes, ownReferences_types]
  rfl

theorem mapReferences_program (f : Reference → Reference) (n : Nat) :
    (program n).mapReferences f = program n := by
  unfold Program.mapReferences program
  rw [List.map_singleton, mapAllReferences_types]
  rfl

/-- Linking finds nothing to do. -/
theorem link_program {reading : Reading} {n : Nat}
    (hprogram : reading.program = program n) (hfixes : reading.fixes = []) :
    reading.link = { reading with program := program n } := by
  unfold Reading.link Program.resolve
  rw [hfixes]
  simp only [hprogram, references_program, mapReferences_program]
  rfl

/-- A tower of any height is linked. -/
theorem link_sources (set : InstructionSet) (n : Nat) :
    ((sources (n + 1)).readAll set ["main.casm"] {}).link.program
        = program (n + 1)
      ∧ ((sources (n + 1)).readAll set ["main.casm"]
        {}).link.log.errorCount = 0 := by
  obtain ⟨parsed, hparsed, hprogram, hreported, himports, hfixes⟩ :=
    parse_text set n { file := "main.casm" }
  let source := String.ofList (text (n + 1) [])
  have hfold : Path.fold "main.casm" = "main.casm" := by decide
  have hsources : sources (n + 1) = .ofList [("main.casm", source)] := by
    unfold sources
    rw [SourceTexts.sources_eq_ofList]
    show SourceSet.ofList [(Path.fold "main.casm", source)] = _
    rw [hfold]
  let place : SourceSet.Place (.ofList [("main.casm", source)]) :=
    ⟨"main.casm", List.mem_singleton_self _⟩
  have hlocate : (SourceSet.ofList [("main.casm", source)]).locate "main.casm" = .ok place := by
    simp [SourceSet.ofList, hfold, place]
  have hload : (SourceSet.ofList [("main.casm", source)]).load place = .ok source := by
    simp [SourceSet.ofList, hfold, place]
  have hadd : ({ log := {} } : Reading).add set "main.casm" source
      = ({ program := parsed.program
           log := parsed.log
           files := ["main.casm"]
           fixes := parsed.output.fixes
           first := some ("main.casm", Text.lines source) }, []) := by
    have hparse : ({ log := {} } : Reading).program.parse set source
        (({ log := {} } : Reading).log.openFile "main.casm") = parsed := hparsed
    unfold Reading.add
    simp only [hparse, himports]
    rfl
  rw [hsources, SourceSet.readAll_of_single hlocate hload hadd, link_program hprogram hfixes]
  refine ⟨rfl, ?_⟩
  rw [Log.errorCount, hreported]
  rfl

/-- A build takes a tower, and puts little on the heap. -/
theorem compile_sources {n : Nat} (hsized : (program (n + 1)).Sized)
    (htexts : (program (n + 1)).texts.length ≤ countLimit) :
    ∃ built, (sources (n + 1)).compile .standard { omitDebugNames := true }
        ["main.casm"] = .ok built
      ∧ built.program = program (n + 1)
      ∧ (ContainerStyle.heap ⟨.standard, false⟩ (program (n + 1))).size
        ≤ countLimit := by
  obtain ⟨hprogram, hlinked⟩ := link_sources .standard n
  have hwritable := SourceSet.writable_of_linked hlinked
  rw [hprogram] at hwritable
  have hheap := size_heap_of_sized hwritable hsized
  obtain ⟨built, hbuilt⟩ := SourceSet.exists_compile_of_sized hlinked (hprogram ▸ hsized)
    (hprogram ▸ Nat.lt_of_le_of_lt htexts (by decide))
  obtain ⟨-, hwrite⟩ := SourceSet.compile_ok_iff.1 hbuilt
  exact ⟨built, hbuilt, (Reading.of_write hwrite).1.trans hprogram, Nat.le_trans hheap htexts⟩

end Tower

end StackAsm
