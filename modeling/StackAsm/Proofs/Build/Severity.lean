/-
Warnings as errors, for a whole build. Every step of a build, from the
search for the roots to the fixing of branches, does the same if warnings
are taken as errors (`Reading.Indifferent`); it reports the same as well,
each warning as an error (`readAll_strict`, `link_strict`). Only the last
look at the log is another one then: a build goes on to write if there
is nothing but warnings, or if there is nothing at all.

Where no instruction can be ambiguous, as in the standard set, there are
no warnings, and then there is no difference.
-/
import StackAsm.Proofs.Build.RootOrder
import StackAsm.Proofs.Parse.Severity

namespace StackAsm

-- ==== reading

namespace Reading

/-- What was read if warnings had been taken as errors all along. -/
def strict (reading : Reading) : Reading := { reading with log := reading.log.strict }

theorem report_strict (reading : Reading) (d : Diagnostic) :
    reading.strict.report d = (reading.report d).strict := by
  unfold report strict
  simp only [Log.report_strict]

theorem add_strict (reading : Reading) (set : InstructionSet) (file text : String) :
    reading.strict.add set file text
      = ((reading.add set file text).1.strict,
        (reading.add set file text).2) := by
  have hparse := reading.program.parse_strict set text (reading.log.openFile file)
  have hopen : reading.strict.log.openFile file = (reading.log.openFile file).strict := rfl
  have hprogram : reading.strict.program = reading.program := rfl
  unfold add
  simp only [hopen, hprogram, hparse]
  rfl

/-- Whether a step is the same if warnings are taken as errors, and adds
errors only if no instruction is ambiguous. -/
structure Indifferent (set : InstructionSet) {α : Type} (step : StateM Reading α) : Prop where
  strict : ∀ reading, step.run reading.strict = ((step.run reading).1, (step.run reading).2.strict)
  errors : set.Unambiguous → ∀ reading : Reading, reading.log.AddsErrors (step.run reading).2.log

theorem indifferent_report {set : InstructionSet} {d : Diagnostic} (h : d.isError = true) :
    Indifferent set (modify fun reading => reading.report d) where
  strict reading := congrArg (Prod.mk PUnit.unit) (reading.report_strict d)
  errors _ reading := reading.log.addsErrors_report h

theorem indifferent_add (set : InstructionSet) (file text : String) :
    Indifferent set (modifyGet fun reading =>
      ((reading.add set file text).2, (reading.add set file text).1)) where
  strict reading := by
    show ((reading.strict.add set file text).2, (reading.strict.add set file text).1) = _
    rw [add_strict]
    rfl
  errors hset reading := Program.addsErrors_parse hset reading.program text
    (reading.log.openFile file)

theorem Indifferent.bind {set : InstructionSet} {α β : Type}
    {step : StateM Reading α} {next : α → StateM Reading β} (hstep : Indifferent set step)
    (hnext : ∀ a, Indifferent set (next a)) :
    Indifferent set (step >>= next) where
  strict reading := by
    show (next (step.run reading.strict).1).run (step.run reading.strict).2 = _
    rw [hstep.strict]
    exact (hnext _).strict _
  errors hset reading := (hstep.errors hset reading).trans ((hnext _).errors hset _)

theorem walkable_indifferent (set : InstructionSet) : Walkable set (Indifferent set) where
  pure _ := ⟨fun _ => rfl, fun _ _ => Log.addsErrors_of_reported rfl⟩
  bind := .bind
  report := indifferent_report
  add := indifferent_add set

end Reading

theorem SourceSet.readAll_strict (sources : SourceSet)
    (set : InstructionSet) (roots : List String) (log : Log) :
    sources.readAll set roots log.strict
      = (sources.readAll set roots log).strict :=
  congrArg Prod.snd (((Reading.walkable_indifferent set).walk roots).strict { log })

theorem SourceSet.addsErrors_readAll {set : InstructionSet}
    (h : set.Unambiguous) (sources : SourceSet) (roots : List String)
    (log : Log) : log.AddsErrors (sources.readAll set roots log).log :=
  ((Reading.walkable_indifferent set).walk roots).errors h { log }

-- ==== linking

theorem Program.fixMethod_strict (program : Program) (log : Log) (fixes : BranchFixes) :
    program.fixMethod log.strict fixes
      = ((program.fixMethod log fixes).1, (program.fixMethod log fixes).2.1.strict,
        (program.fixMethod log fixes).2.2) := by
  unfold fixMethod
  split
  · simp only [Log.report_strict]
  · simp only [Log.reportAll_strict]

theorem Program.fixBranches_strict (program : Program) (log : Log) (fixes : List BranchFixes) :
    program.fixBranches log.strict fixes
      = ((program.fixBranches log fixes).1, (program.fixBranches log fixes).2.1.strict,
        (program.fixBranches log fixes).2.2) := by
  induction fixes generalizing program log with
  | nil => rfl
  | cons first rest ih =>
    unfold fixBranches
    simp only [fixMethod_strict, ih]

theorem Program.addsErrors_fixMethod (program : Program) (log : Log) (fixes : BranchFixes) :
    log.AddsErrors (program.fixMethod log fixes).2.1 := by
  unfold fixMethod
  split
  · exact log.addsErrors_report rfl
  · exact log.addsErrors_reportAll BranchFixes.isError_of_apply

theorem Program.addsErrors_fixBranches (program : Program) (log : Log) (fixes : List BranchFixes) :
    log.AddsErrors (program.fixBranches log fixes).2.1 := by
  induction fixes generalizing program log with
  | nil => exact Log.addsErrors_of_reported rfl
  | cons first rest ih =>
    exact (program.addsErrors_fixMethod log first).trans (ih _ _)

namespace Reading

variable {built : Compiled}

theorem link_strict (reading : Reading) : reading.strict.link = reading.link.strict := by
  unfold link Program.resolve strict
  simp only [Log.reportAll_strict, Program.fixBranches_strict]

/-- Linking adds errors only. -/
theorem addsErrors_link (reading : Reading) :
    reading.log.AddsErrors reading.link.log :=
  (Log.addsErrors_reportAll _ (Declarations.isError_complaints _ _ _)).trans
      (Program.addsErrors_fixBranches _ _ _)

-- ==== verdicts

/-- What a build makes of a linked program. -/
def finish (reading : Reading) (style : ContainerStyle) :
    Except BuildFailure Compiled := if reading.log.hasErrors then .error (failure reading.toReport)
  else (reading.write style).mapError reading.formatFailure

variable {reading : Reading} {style : ContainerStyle}

theorem report_of_write (h : reading.write style = .ok built) :
    built.report = reading.toReport := by
  obtain ⟨_, -, h⟩ := bind_ok_iff.1 h
  obtain ⟨_, -, h⟩ := bind_ok_iff.1 h
  cases h
  rfl

theorem finish_of_hasErrors (h : reading.log.hasErrors = true) :
    reading.finish style = .error (failure reading.toReport) := by
  unfold finish
  rw [if_pos h]

theorem finish_ok_iff :
    reading.finish style = .ok built
      ↔ reading.log.hasErrors = false
        ∧ reading.write style = .ok built := by
  unfold finish
  split
  · rename_i herrors
    rw [herrors]
    exact ⟨nofun, nofun⟩
  · rename_i herrors
    rw [Bool.not_eq_true] at herrors
    cases hwrite : reading.write style with
    | error => exact ⟨nofun, nofun⟩
    | ok written =>
      have hmap : (Except.mapError reading.formatFailure
          (.ok written) : Except BuildFailure Compiled) = .ok written := rfl
      rw [hmap, Except.ok.injEq, Except.ok.injEq]
      exact ⟨fun h => ⟨herrors, h⟩, And.right⟩

/-- A failure that has diagnostics is one with errors; what cannot be
written has none. -/
theorem report_of_finish {failure : BuildFailure} (h : reading.finish style = .error failure)
    (hsome : failure.report.diagnostics ≠ []) :
    reading.log.hasErrors = true ∧ failure.report = reading.toReport := by
  unfold finish at h
  split at h
  · rename_i herrors
    cases h
    exact ⟨herrors, rfl⟩
  · cases hwrite : reading.write style with
    | error =>
      rw [hwrite] at h
      cases h
      exact absurd rfl hsome
    | ok =>
      rw [hwrite] at h
      cases h

/-- With warnings taken as errors, anything reported is an error. -/
theorem hasErrors_strict (reading : Reading) :
    reading.strict.log.hasErrors = !reading.log.reported.isEmpty := by
  cases hreported : reading.log.reported with
  | nil =>
    unfold strict Log.strict Log.hasErrors Log.errorCount
    rw [hreported]
    rfl
  | cons d =>
    unfold strict Log.strict Log.hasErrors Log.errorCount
    rw [hreported]
    exact decide_eq_true (List.countP_pos_iff.2
      ⟨d.escalate, .head _, d.isError_escalate⟩)

/-- Where there are errors only, it makes no difference to take warnings
as errors. -/
theorem finish_strict_of_errors (h : ∀ d ∈ reading.log.reported, d.isError = true) :
    reading.strict.finish style = reading.finish style := by
  have hsame : reading.log.reported.map Diagnostic.escalate = reading.log.reported := by
    rw [List.map_congr_left fun d hd =>
      Diagnostic.escalate_of_isError (h d hd)]
    exact List.map_id' _
  obtain ⟨_, ⟨_, _, _, _⟩, _, _, _⟩ := reading
  unfold strict Log.strict
  simp only [hsame]
  rfl

/-- Without errors, whatever was reported is a warning. -/
theorem warningCount_pos (hsome : reading.log.reported ≠ []) (h : reading.log.hasErrors = false) :
    0 < reading.toReport.warningCount := by
  obtain ⟨d, hd⟩ := List.exists_mem_of_ne_nil _ hsome
  have hnone : Diagnostic.errorCount reading.log.reported = 0 :=
    Nat.eq_zero_of_not_pos (of_decide_eq_false h)
  have hwarning : d.isError ≠ true := List.countP_eq_zero.1 hnone d hd
  refine List.countP_pos_iff.2 ⟨d, List.mem_reverse.2 hd, ?_⟩
  obtain ⟨severity, _, _, _, _, _, _, _, _⟩ := d
  cases severity with
  | warning => rfl
  | error => exact absurd rfl hwarning

/-- With warnings taken as errors, a build succeeds if it does without
and there are no warnings. -/
theorem finish_strict_ok_iff :
    reading.strict.finish style = .ok built
      ↔ reading.finish style = .ok built
        ∧ built.report.warningCount = 0 := by
  by_cases hnone : reading.log.reported = []
  · have hsame : reading.strict.finish style = reading.finish style :=
      finish_strict_of_errors (by rw [hnone]; exact List.forall_mem_nil _)
    rw [hsame]
    refine ⟨fun h => ⟨h, ?_⟩, And.left⟩
    rw [report_of_write (finish_ok_iff.1 h).2]
    unfold Report.warningCount toReport Log.diagnostics
    rw [hnone]
    rfl
  · -- whatever was reported is an error in one and a warning in the other
    constructor
    · intro h
      have hclean := (finish_ok_iff.1 h).1
      rw [hasErrors_strict, Bool.not_eq_false', List.isEmpty_iff] at hclean
      exact absurd hclean hnone
    · intro h
      obtain ⟨hbuilt, hcount⟩ := h
      obtain ⟨hclean, hwrite⟩ := finish_ok_iff.1 hbuilt
      have hpos := warningCount_pos hnone hclean
      rw [← report_of_write hwrite, hcount] at hpos
      exact absurd hpos (Nat.lt_irrefl 0)

/-- With warnings taken as errors, a build that failed with diagnostics
fails with the same ones. -/
theorem finish_strict_error {failure : BuildFailure} (h : reading.finish style = .error failure)
    (hsome : failure.report.diagnostics ≠ []) :
    ∃ failure', reading.strict.finish style = .error failure'
      ∧ failure'.report.diagnostics
        = failure.report.diagnostics.map Diagnostic.escalate := by
  obtain ⟨-, hreport⟩ := report_of_finish h hsome
  rw [hreport] at hsome ⊢
  have hreported : reading.log.reported ≠ [] := fun hnil => hsome (List.reverse_eq_nil_iff.2 hnil)
  have herrors : reading.strict.log.hasErrors = true := by
    rw [hasErrors_strict, List.isEmpty_eq_false_iff.2 hreported]
    rfl
  exact ⟨_, finish_of_hasErrors herrors, List.map_reverse.symm⟩

end Reading

-- ==== builds

namespace SourceSet

variable (sources : SourceSet) (set : InstructionSet)
variable (options : BuildOptions) (roots : List String)

theorem compile_eq_finish :
    sources.compile set options roots
      = (sources.readAll set roots (startLog options)).link.finish
        ⟨set, !options.omitDebugNames⟩ := rfl

/-- A build with warnings taken as errors reads and links the same. -/
theorem compile_strict_eq_finish :
    sources.compile set { options with warningsAsErrors := true } roots
      = (sources.readAll set roots (startLog
          { options with warningsAsErrors := false })).link.strict.finish
        ⟨set, !options.omitDebugNames⟩ := by
  have hlog : startLog { options with warningsAsErrors := true }
      = (startLog { options with warningsAsErrors := false }).strict := rfl
  rw [compile_eq_finish, hlog, readAll_strict, Reading.link_strict]

/-- Taking warnings as errors changes the verdict only. Whatever the
instructions, a build with warnings taken as errors succeeds if the build
without does and has no warnings, with the same result, and if the build
without fails with diagnostics, it fails with the same ones as errors. No
text with standard instructions has a warning, so that with these the two
builds are the same. -/
theorem compile_warningsAsErrors :
    (∀ built, sources.compile set { options with warningsAsErrors := true } roots
          = .ok built
        ↔ sources.compile set { options with warningsAsErrors := false } roots = .ok built
          ∧ built.report.warningCount = 0)
    ∧ (∀ failure, sources.compile set { options with warningsAsErrors := false } roots
          = .error failure → failure.report.diagnostics ≠ [] → ∃ failure',
          sources.compile set { options with warningsAsErrors := true } roots = .error failure'
            ∧ failure'.report.diagnostics
              = failure.report.diagnostics.map Diagnostic.escalate)
    ∧ (∀ (program : Program) (source : String) (log : Log),
      log.AddsErrors (program.parse .standard source log).log)
    ∧ sources.compile .standard { options with warningsAsErrors := true } roots
      = sources.compile .standard
        { options with warningsAsErrors := false } roots := by
  have hstandard := InstructionSet.unambiguous_standard
  rw [compile_strict_eq_finish, compile_strict_eq_finish, compile_eq_finish, compile_eq_finish]
  refine ⟨fun built => Reading.finish_strict_ok_iff, fun failure => Reading.finish_strict_error,
    Program.addsErrors_parse hstandard, Reading.finish_strict_of_errors ?_⟩
  have hread := sources.addsErrors_readAll hstandard roots
    (startLog { options with warningsAsErrors := false })
  obtain ⟨new, hnew, herrors⟩ := hread.trans (Reading.addsErrors_link _)
  rw [hnew]
  exact List.forall_mem_append.2 ⟨herrors, List.forall_mem_nil _⟩

end SourceSet

namespace Sample

/-- Two instructions that are written alike. -/
def doubled : InstructionSet where
  parents := []
  forms := [⟨"put", .single 1, [.constant], .byKind, .plain⟩,
    ⟨"put", .single 2, [.constant], .byKind, .plain⟩]
  sound := by decide

def putting : SourceTexts :=
  .ofFiles [("a.casm", ".type A \x7b\n.method m() \x7b\nput 1\n\x7d\n\x7d\n")]

theorem linked_putting :
    let reading := putting.sources.readAll doubled ["a.casm"] {}
    reading.link.log.errorCount = 0 ∧ reading.link.program.Sized
      ∧ reading.link.program.texts.length < UInt32.size
      ∧ reading.link.toReport.warningCount = 1 := by
  rw [putting.sources_eq_ofList, SourceSet.readAll_eq_rounds]
  decide +kernel

/-- What is written is built with a warning, and not at all if warnings
are taken as errors. -/
theorem compile_warningsAsErrors_putting :
    (∃ built, putting.sources.compile doubled { omitDebugNames := true } ["a.casm"] = .ok built
      ∧ built.report.warningCount = 1)
    ∧ ∀ built, putting.sources.compile doubled
        { omitDebugNames := true, warningsAsErrors := true } ["a.casm"]
      ≠ .ok built := by
  obtain ⟨hlinked, hsized, htexts, hcount⟩ := linked_putting
  obtain ⟨built, hbuilt⟩ := SourceSet.exists_compile_of_sized hlinked hsized htexts
  have hreport := Reading.report_of_write (SourceSet.compile_ok_iff.1 hbuilt).2
  have hwarning : built.report.warningCount = 1 := by
    rw [hreport]
    exact hcount
  refine ⟨⟨built, hbuilt, hwarning⟩, fun other hother => ?_⟩
  obtain ⟨hsame, hnone⟩ := ((putting.sources.compile_warningsAsErrors doubled
    { omitDebugNames := true } ["a.casm"]).1 other).1 hother
  change putting.sources.compile doubled { omitDebugNames := true } ["a.casm"] = .ok other at hsame
  rw [hbuilt] at hsame
  cases hsame
  rw [hwarning] at hnone
  cases hnone

end Sample

end StackAsm
