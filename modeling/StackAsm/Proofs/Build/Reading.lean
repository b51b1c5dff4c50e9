/-
Reading and linking a build. Every file that is read leaves the program
sound with the fixes handed over so far; so does a walk along imports,
whatever files it finds, and linking uses the fixes up if nothing is
wrong. No step takes an error back. So a build that ends without errors
had none on the way, and its program is sound and its branches are aimed
(`SourceSet.sound_of_compile`).
-/
import StackAsm.Build.Compile
import StackAsm.Proofs.Parse.Tidy
import StackAsm.Proofs.Program.Aim

namespace StackAsm

-- ==== steps

theorem Program.adds_parse (program : Program) (set : InstructionSet)
    (source : String) (log : Log) :
    Log.Adds Diagnostic.Plain log (program.parse set source log).log :=
  (ParseState.adds_run set _ (.ofSource program source log)).trans (ParseState.adds_closeAll _)

namespace Reading

variable (set : InstructionSet)

/-- Whether what was read is sound. -/
def Sound (reading : Reading) : Prop := reading.program.Sound set reading.fixes

theorem sound_empty (log : Log) : Sound set { log } := Program.sound_empty set

/-- Errors are not taken back, and what was read stays sound. -/
structure Extends (reading next : Reading) : Prop where
  errors_le : reading.log.errorCount ≤ next.log.errorCount
  sound : reading.Sound set → next.Sound set

theorem Extends.refl (reading : Reading) : reading.Extends set reading := ⟨Nat.le_refl _, id⟩

theorem Extends.trans {set : InstructionSet}
    {reading middle next : Reading} (hfirst : reading.Extends set middle)
    (hsecond : middle.Extends set next) : reading.Extends set next where
  errors_le := Nat.le_trans hfirst.errors_le hsecond.errors_le
  sound hsound := hsecond.sound (hfirst.sound hsound)

theorem extends_report (reading : Reading) (d : Diagnostic) :
    reading.Extends set (reading.report d) := ⟨Log.errorCount_le_report .., id⟩

theorem extends_add (reading : Reading) (file text : String) :
    reading.Extends set (reading.add set file text).1 where
  errors_le := (reading.program.adds_parse set text (reading.log.openFile file)).errorCount_le
  sound hsound := hsound.parse text (reading.log.openFile file)

/-- Whether a step extends what was read. -/
def Keeps {α : Type} (step : StateM Reading α) : Prop :=
  ∀ reading : Reading, reading.Extends set (step.run reading).2

end Reading

-- ==== walks

/-- A property of steps is a walk's if it holds of the steps that a walk
is made of, and of what is made of such steps. -/
structure Walkable (set : InstructionSet)
    (Good : ∀ {α : Type}, StateM Reading α → Prop) : Prop where
  pure : ∀ {α : Type} (a : α), Good (Pure.pure a)
  bind : ∀ {α β : Type} {step : StateM Reading α}
    {next : α → StateM Reading β}, Good step → (∀ a, Good (next a)) → Good (step >>= next)
  report : ∀ {d : Diagnostic}, d.isError = true → Good (modify fun reading => reading.report d)
  add : ∀ file text : String, Good (modifyGet fun reading =>
    ((reading.add set file text).2, (reading.add set file text).1))

namespace Walkable

variable {set : InstructionSet}
variable {Good : ∀ {α : Type}, StateM Reading α → Prop}

theorem filterMapM (h : Walkable set Good) {β : Type}
    {step : α → StateM Reading (Option β)} (hstep : ∀ a, Good (step a))
    (items : List α) : Good (items.filterMapM step) := by
  induction items with
  | nil => exact h.pure []
  | cons item rest ih =>
    rw [List.filterMapM_cons]
    refine h.bind (hstep item) fun _ => ?_
    split
    · exact ih
    · exact h.bind ih fun _ => h.pure _

variable {sources : SourceSet}

theorem locateRoots (h : Walkable set Good) (roots : List String) :
    Good (sources.locateRoots roots) := by
  refine h.filterMapM (fun _ => ?_) roots
  split
  · exact h.pure _
  · exact h.bind (h.report rfl) fun _ => h.pure _

theorem locateImport (h : Walkable set Good) (importer : String)
    (wanted : Import) : Good (sources.locateImport importer wanted) := by
  unfold SourceSet.locateImport
  simp only
  split
  · exact h.pure _
  · exact h.bind (h.report rfl) fun _ => h.pure _

theorem readFile (h : Walkable set Good) (place : sources.Place) :
    Good (sources.readFile set place) := by
  unfold SourceSet.readFile
  split
  · exact h.bind (h.report rfl) fun _ => h.pure _
  · rename_i text hload
    exact h.bind (h.add place text) fun imports =>
      h.filterMapM (h.locateImport place) imports

theorem visitAll (h : Walkable set Good) (work : Worklist sources) :
    Good (work.visitAll (sources.readFile set)) := by
  induction work using Worklist.visitAll.induct with
  | case1 work hqueue =>
    rw [Worklist.visitAll]
    split
    · exact h.pure ()
    · rename_i hmore
      rw [hqueue] at hmore
      cases hmore
  | case2 work place rest hqueue ih =>
    rw [Worklist.visitAll]
    split
    · exact h.pure ()
    · rename_i hmore
      rw [hqueue] at hmore
      cases hmore
      exact h.bind (h.readFile place) ih

theorem walk (h : Walkable set Good) (roots : List String) : Good (do
      let places ← sources.locateRoots roots
      Worklist.visitAll (sources.readFile set) (Worklist.offerAll {} places)) :=
  h.bind (h.locateRoots roots) fun _ => h.visitAll _

end Walkable

open Reading

theorem walkable_keeps (set : InstructionSet) : Walkable set (Keeps set) where
  pure _ reading := .refl set reading
  bind hstep hnext reading := (hstep reading).trans (hnext _ _)
  report _ reading := reading.extends_report set _
  add file text reading := reading.extends_add set file text

/-- What is read is sound. -/
theorem SourceSet.extends_readAll (sources : SourceSet)
    (set : InstructionSet) (roots : List String) (log : Log) :
    Extends set { log } (sources.readAll set roots log) := (walkable_keeps set).walk roots { log }

namespace SourceSet

variable {sources : SourceSet} {set : InstructionSet}
  {root text : String} {place : sources.Place} {reading : Reading}

/-- A root that imports nothing is all that is read. -/
theorem readAll_of_single {log : Log} (hlocate : sources.locate root = .ok place)
    (hload : sources.load place = .ok text)
    (hadd : ({ log } : Reading).add set place text = (reading, [])) :
    sources.readAll set [root] log = reading := by
  have hroots : (sources.locateRoots [root]).run { log } = ([place], { log }) := by
    unfold locateRoots
    rw [List.filterMapM_cons]
    simp only [hlocate]
    rfl
  have hfile : (sources.readFile set place).run { log } = ([], reading) := by
    unfold readFile
    simp only [hload]
    show (List.filterMapM (sources.locateImport place)
      (({ log } : Reading).add set place text).2).run (({ log } : Reading).add set place text).1 = _
    rw [hadd]
    rfl
  have hwalk : (Worklist.visitAll (sources.readFile set)
      (Worklist.offerAll {} [place])).run { log } = ((), reading) := by
    rw [Worklist.visitAll]
    show (sources.readFile set place >>= _).run { log } = _
    rw [StateT.run_bind, hfile]
    show (Worklist.visitAll (sources.readFile set) { seen := [place], queue := [] }).run reading = _
    rw [Worklist.visitAll]
    rfl
  show ((sources.locateRoots [root] >>= _).run { log }).2 = _
  rw [StateT.run_bind, hroots]
  exact congrArg Prod.snd hwalk

end SourceSet

-- ==== linking

namespace Reading

theorem errorCount_le_link (reading : Reading) :
    reading.log.errorCount ≤ reading.link.log.errorCount :=
  Nat.le_trans (Log.errorCount_le_reportAll ..) (Program.errorCount_le_fixBranches ..)

/-- If nothing is wrong when a program is linked, all was resolved. -/
theorem errorCount_resolve {reading : Reading}
    (h : reading.link.log.errorCount = reading.log.errorCount) :
    (reading.program.resolve reading.log).2.2.errorCount = reading.log.errorCount := by
  have hlow : reading.log.errorCount ≤ (reading.program.resolve reading.log).2.2.errorCount :=
    Log.errorCount_le_reportAll ..
  have hhigh : (reading.program.resolve reading.log).2.2.errorCount ≤ reading.link.log.errorCount :=
    Program.errorCount_le_fixBranches ..
  omega

/-- Linking, if nothing is wrong, uses the fixes up. -/
theorem Sound.link {set : InstructionSet} {reading : Reading} (h : reading.Sound set)
    (herrors : reading.link.log.errorCount = reading.log.errorCount) :
    reading.link.program.Sound set [] := by
  let f := reading.program.declarations.settle
  have hfixed : (Program.fixBranches (reading.program.mapReferences f)
      (reading.program.resolve reading.log).2.2 reading.fixes).2.1.errorCount
      = (reading.program.resolve reading.log).2.2.errorCount :=
    herrors.trans (errorCount_resolve herrors).symm
  have hresolved := Program.linkable_mapReferences f h.linkable
  obtain ⟨hlink, houtline, hexternals⟩ := Program.linkable_fixBranches hresolved hfixed
  refine ⟨hlink, h.listed.of_outline ?_ hexternals, ?_⟩
  · exact houtline.trans (Program.outline_mapReferences f reading.program)
  · exact (h.tidy.mapReferences f fun _ _ htidy =>
      htidy.mapReferences f).of_aim TidyMembers.aims
        (Program.aim_fixBranches hresolved (fun _ hfix => hfix) _)

end Reading

/-- The program of a build is sound, with every branch aimed. -/
theorem SourceSet.sound_of_compile {sources : SourceSet}
    {set : InstructionSet} {options : BuildOptions} {roots : List String} {built : Compiled}
    (h : sources.compile set options roots = .ok built) :
    ∃ reading : Reading, reading.program.Sound set []
      ∧ reading.write ⟨set, !options.omitDebugNames⟩ = .ok built := by
  unfold compile at h
  simp only at h
  split at h
  · cases h
  · rename_i herrors
    let log : Log := { warningsAsErrors := options.warningsAsErrors }
    let read := sources.readAll set roots log
    have hextends := sources.extends_readAll set roots log
    have hlink := read.errorCount_le_link
    have hzero : read.link.log.errorCount = 0 :=
      Nat.eq_zero_of_not_pos fun hpos => herrors (decide_eq_true hpos)
    have hread : read.Sound set := hextends.sound (sound_empty set log)
    refine ⟨read.link, hread.link (by omega), ?_⟩
    cases hwrite : read.link.write ⟨set, !options.omitDebugNames⟩ with
    | error =>
      rw [hwrite] at h
      cases h
    | ok =>
      rw [hwrite] at h
      cases h
      rfl

end StackAsm
