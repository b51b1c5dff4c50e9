/-
What a build reads. If no error is reported, every root and every import
was found, and each file was read as if there were no other
(`SourceSet.leads`). So the files that are read are known from the roots
and from what each file imports by itself: they are read in the order of
a walk (`SourceSet.exists_walk_of_readAll`), and conversely the files of
such a walk are what a build reads (`SourceSet.readAll_of_walk`).
-/
import StackAsm.Proofs.Build.Aiming
import StackAsm.Proofs.Build.Walk
import StackAsm.Proofs.Parse.Isolation

namespace StackAsm

open Reading

-- ==== finding

section Finding

variable {α β : Type} {step : α → StateM Reading (Option β)} {find : α → Option β}

/-- Whether a step looks for something and reports an error if it is not
there. -/
structure Finds (step : α → StateM Reading (Option β)) (find : α → Option β) : Prop where
  some : ∀ item found, find item = some found → ∀ reading,
    (step item).run reading = (some found, reading)
  none : ∀ item, find item = none → ∀ reading, ∃ d, d.isError = true
      ∧ (step item).run reading = (none, reading.report d)

theorem run_bind_reading {γ δ : Type} (first : StateM Reading γ)
    (next : γ → StateM Reading δ) (reading : Reading) :
    (first >>= next).run reading = (next (first.run reading).1).run (first.run reading).2 := rfl

/-- What is all there is found, and nothing is reported. -/
theorem Finds.filterMapM_of_all (h : Finds step find) {items : List α}
    (hall : ∀ item ∈ items, (find item).isSome = true) (reading : Reading) :
    (items.filterMapM step).run reading = (items.filterMap find, reading) := by
  induction items with
  | nil => rfl
  | cons item rest ih =>
    rw [List.forall_mem_cons] at hall
    obtain ⟨found, hfound⟩ := Option.isSome_iff_exists.1 hall.1
    rw [List.filterMapM_cons, List.filterMap_cons, hfound,
      run_bind_reading, h.some item found hfound]
    rw [run_bind_reading, ih hall.2]
    rfl

theorem Finds.errorCount_le (h : Finds step find) (items : List α)
    (reading : Reading) : reading.log.errorCount
      ≤ ((items.filterMapM step).run reading).2.log.errorCount := by
  induction items generalizing reading with
  | nil => exact Nat.le_refl _
  | cons item rest ih =>
    rw [List.filterMapM_cons, run_bind_reading]
    cases hfind : find item with
    | some found =>
      rw [h.some item found hfind]
      exact ih reading
    | none =>
      obtain ⟨d, -, hstep⟩ := h.none item hfind reading
      rw [hstep]
      exact Nat.le_trans (reading.log.errorCount_le_report d) (ih (reading.report d))

/-- Where nothing is reported, all was there. -/
theorem Finds.all_of_clean (h : Finds step find) {items : List α} {reading : Reading}
    (hclean : ((items.filterMapM step).run reading).2.log.errorCount
      = reading.log.errorCount) :
    ∀ item ∈ items, (find item).isSome = true := by
  induction items with
  | nil => exact List.forall_mem_nil _
  | cons item rest ih =>
    rw [List.filterMapM_cons, run_bind_reading] at hclean
    rw [List.forall_mem_cons]
    cases hfind : find item with
    | some found =>
      rw [h.some item found hfind] at hclean
      exact ⟨rfl, ih hclean⟩
    | none =>
      obtain ⟨d, herror, hstep⟩ := h.none item hfind reading
      rw [hstep] at hclean
      simp only at hclean
      have hlt := reading.log.errorCount_lt_report herror
      have hle := h.errorCount_le rest (reading.report d)
      change (reading.log.report d).errorCount ≤ _ at hle
      omega

end Finding

namespace SourceSet

variable {sources : SourceSet} {set : InstructionSet} {strict : Bool}

/-- The place a path leads to, if any. -/
def place? (sources : SourceSet) (path : String) : Option sources.Place :=
  (sources.locate path).toOption

theorem place?_eq_some {path : String} {place : sources.Place} :
    sources.place? path = some place ↔ sources.locate path = .ok place := by
  unfold place?
  cases sources.locate path with
  | ok => simp [Except.toOption]
  | error => simp [Except.toOption]

theorem place?_eq_none {path : String} :
    sources.place? path = none ↔ ∃ fault, sources.locate path = .error fault := by
  unfold place?
  cases sources.locate path with
  | ok => simp [Except.toOption]
  | error => simp [Except.toOption]

/-- The place that an import leads to, if any. -/
def target? (sources : SourceSet) (importer : String) (wanted : Import) :
    Option sources.Place := sources.place? (importPath importer wanted.path)

theorem finds_locateImport (sources : SourceSet) (importer : String) :
    Finds (sources.locateImport importer) (sources.target? importer) where
  some wanted found hfound reading := by
    rw [target?, place?_eq_some] at hfound
    unfold locateImport
    simp only [hfound]
    rfl
  none wanted hnone reading := by
    rw [target?, place?_eq_none] at hnone
    obtain ⟨_, hfault⟩ := hnone
    unfold locateImport
    simp only [hfault]
    exact ⟨_, rfl, rfl⟩

theorem exists_finds_root (sources : SourceSet) :
    ∃ step, (∀ roots, sources.locateRoots roots = roots.filterMapM step)
      ∧ Finds step sources.place? := by
  refine ⟨_, fun _ => rfl, ⟨fun root _ hfound reading => ?_, fun root hnone reading => ?_⟩⟩
  · rw [place?_eq_some] at hfound
    simp only [hfound]
    rfl
  · obtain ⟨_, hfault⟩ := place?_eq_none.1 hnone
    simp only [hfault]
    exact ⟨_, rfl, rfl⟩

-- ==== files

/-- The text at a place, empty if it cannot be loaded. -/
def text (sources : SourceSet) (place : String) : String := (sources.load place).toOption.getD ""

/-- A place with its text. -/
def file (sources : SourceSet) (place : sources.Place) : String × String :=
  (place, sources.text place)

/-- The places that a file leads to, as it is read by itself. -/
def leads (sources : SourceSet) (set : InstructionSet) (strict : Bool)
    (place : sources.Place) : List sources.Place :=
  (Parsed.ofFile set strict place (sources.text place)).output.imports.filterMap
    (sources.target? place)

/-- Whether a file is there and so are the files it imports. -/
structure Readable (sources : SourceSet) (set : InstructionSet)
    (strict : Bool) (place : sources.Place) : Prop where
  load : sources.load place = .ok (sources.text place)
  imports : ∀ wanted ∈ (Parsed.ofFile set strict place (sources.text place)).output.imports,
    (sources.target? place wanted).isSome = true

theorem text_of_load {place text : String}
    (h : sources.load place = .ok text) : sources.text place = text := by
  rw [SourceSet.text, h]
  rfl

variable {place : sources.Place} {reading : Reading}

theorem run_readFile (h : sources.load place = .ok (sources.text place)) (reading : Reading) :
    (sources.readFile set place).run reading
      = ((reading.add set place (sources.text place)).2.filterMapM (sources.locateImport place)).run
        (reading.add set place (sources.text place)).1 := by
  unfold readFile
  rw [h]
  rfl

/-- A file that is read without errors gives the imports it has by
itself. -/
theorem imports_add (hsound : reading.Sound set)
    (hclean : (reading.add set place
      (sources.text place)).1.log.errorCount = reading.log.errorCount) :
    (reading.add set place (sources.text place)).2
      = (Parsed.ofFile set reading.log.warningsAsErrors place
        (sources.text place)).output.imports :=
  congrArg ParseOutput.imports (Program.parse_alone hsound.linkable hsound.listed hclean).2.1

/-- Reading a file of which everything is there. -/
theorem readFile_of_readable (hsound : reading.Sound set)
    (h : sources.Readable set reading.log.warningsAsErrors place)
    (hclean : (reading.add set place
      (sources.text place)).1.log.errorCount = reading.log.errorCount) :
    (sources.readFile set place).run reading
      = (sources.leads set reading.log.warningsAsErrors place,
        (reading.add set place (sources.text place)).1) := by
  rw [run_readFile h.load, imports_add hsound hclean,
    (sources.finds_locateImport place).filterMapM_of_all h.imports]
  rfl

/-- A file that is read without errors is there, with all it imports. -/
theorem readable_of_clean (hsound : reading.Sound set)
    (hclean : ((sources.readFile set place).run reading).2.log.errorCount
      = reading.log.errorCount) :
    sources.Readable set reading.log.warningsAsErrors place
      ∧ (reading.add set place (sources.text place)).1.log.errorCount
        = reading.log.errorCount := by
  cases hload : sources.load place with
  | error fault =>
    unfold readFile at hclean
    rw [hload] at hclean
    have hlt := @Log.errorCount_lt_report (openFailure place 0 fault) reading.log rfl
    change (reading.log.report _).errorCount = _ at hclean
    omega
  | ok =>
    obtain rfl := text_of_load hload
    rw [run_readFile hload] at hclean
    have hadd := (reading.extends_add set place (sources.text place)).errors_le
    have hfound := (sources.finds_locateImport place).errorCount_le
      (reading.add set place (sources.text place)).2 (reading.add set place (sources.text place)).1
    have hread : (reading.add set place (sources.text place)).1.log.errorCount
        = reading.log.errorCount := by omega
    refine ⟨⟨hload, ?_⟩, hread⟩
    rw [← imports_add hsound hread]
    exact (sources.finds_locateImport place).all_of_clean (hclean.trans hread.symm)

end SourceSet

-- ==== walks

namespace Reading

variable {set : InstructionSet} {reading : Reading}

/-- Files read one after the other. -/
def addAll (set : InstructionSet) (reading : Reading) (files : List (String × String)) : Reading :=
  files.foldl (fun reading file => (reading.add set file.1 file.2).1) reading

theorem addAll_cons (reading : Reading) (file : String × String) (rest : List (String × String)) :
    reading.addAll set (file :: rest) = (reading.add set file.1 file.2).1.addAll set rest := rfl

theorem strict_add (reading : Reading) (file text : String) :
    (reading.add set file text).1.log.warningsAsErrors
      = reading.log.warningsAsErrors :=
  (reading.program.adds_parse set text (reading.log.openFile file)).strict

theorem extends_addAll (reading : Reading) (files : List (String × String)) :
    reading.Extends set (reading.addAll set files) := by
  induction files generalizing reading with
  | nil => exact .refl set reading
  | cons file rest ih =>
    exact (reading.extends_add set file.1 file.2).trans (ih _)

theorem files_addAll (reading : Reading) (files : List (String × String)) :
    (reading.addAll set files).files = reading.files ++ files.map (·.1) := by
  induction files generalizing reading with
  | nil => exact (List.append_nil _).symm
  | cons file rest ih =>
    rw [addAll_cons, ih, List.map_cons]
    exact List.append_assoc ..

end Reading

namespace SourceSet

variable {sources : SourceSet} {set : InstructionSet} {order : List sources.Place} {strict : Bool}

open Worklist in
/-- A walk without errors goes where the files lead by themselves, and
reads them one after the other. -/
theorem exists_walk_of_visitAll (work : Worklist sources)
    {reading : Reading} (hsound : reading.Sound set)
    (hclean : ((visitAll (sources.readFile set) work).run
      reading).2.log.errorCount = reading.log.errorCount) :
    ∃ order, Walks (sources.leads set reading.log.warningsAsErrors) work order
      ∧ (∀ place ∈ order, sources.Readable set reading.log.warningsAsErrors place)
      ∧ ((visitAll (sources.readFile set) work).run reading).2
        = reading.addAll set (order.map sources.file) := by
  generalize hsize : work.size = size
  induction size using Nat.strongRecOn generalizing work reading with
  | ind size ih =>
    cases hqueue : work.queue with
    | nil => exact ⟨[], .done hqueue, nofun, visitAll_of_nil hqueue⟩
    | cons place rest =>
      rw [visitAll_of_cons hqueue] at hclean ⊢
      have hfile := ((walkable_keeps set).readFile place reading).errors_le
      have hrest := ((walkable_keeps set).visitAll
        (offerAll { work with queue := rest } ((sources.readFile set place).run reading).1)
        ((sources.readFile set place).run reading).2).errors_le
      obtain ⟨hreadable, hread⟩ := @readable_of_clean sources set place reading hsound (by omega)
      rw [readFile_of_readable hsound hreadable hread] at hclean ⊢
      obtain ⟨order, hwalk, hall, hfinal⟩ := ih _ (hsize ▸ size_offerAll_lt hqueue _) _
        ((reading.extends_add set place _).sound hsound) (hclean.trans hread.symm) rfl
      rw [strict_add] at hwalk hall
      refine ⟨place :: order, .visit hqueue hwalk, ?_, hfinal⟩
      rw [List.forall_mem_cons]
      exact ⟨hreadable, hall⟩

open Worklist in
/-- Files that can be read one after the other are read by the walk that
goes where they lead. -/
theorem visitAll_of_walk {work : Worklist sources} {reading : Reading}
    (hwalk : Walks (sources.leads set strict) work order)
    (hstrict : reading.log.warningsAsErrors = strict) (hsound : reading.Sound set)
    (hall : ∀ place ∈ order, sources.Readable set strict place)
    (hclean : (reading.addAll set
      (order.map sources.file)).log.errorCount = reading.log.errorCount) :
    ((visitAll (sources.readFile set) work).run reading).2
      = reading.addAll set (order.map sources.file) := by
  induction hwalk generalizing reading with
  | done hqueue => exact visitAll_of_nil hqueue
  | @visit work place rest order hqueue hrest ih =>
    subst hstrict
    rw [List.forall_mem_cons] at hall
    have hlow := (reading.extends_add set place (sources.text place)).errors_le
    have hhigh := (@extends_addAll set (reading.add set place (sources.text place)).1
      (order.map sources.file)).errors_le
    have hread : (reading.add set place (sources.text place)).1.log.errorCount
        = reading.log.errorCount := by
      change (((reading.add set place
        (sources.text place)).1.addAll set _).log.errorCount) = _ at hclean
      omega
    rw [visitAll_of_cons hqueue, readFile_of_readable hsound hall.1 hread]
    exact ih (strict_add ..) ((reading.extends_add set place _).sound hsound) hall.2
      (hclean.trans hread.symm)

-- ==== roots

variable {roots : List String} {log : Log}

/-- The worklist and the reading that a build starts from. -/
def start (sources : SourceSet) (roots : List String) (log : Log) :
    Worklist sources × Reading :=
  (Worklist.offerAll {} ((sources.locateRoots roots).run { log }).1,
    ((sources.locateRoots roots).run { log }).2)

theorem readAll_eq_visitAll (sources : SourceSet) (set : InstructionSet)
    (roots : List String) (log : Log) :
    sources.readAll set roots log
      = ((Worklist.visitAll (sources.readFile set)
        (sources.start roots log).1).run (sources.start roots log).2).2 :=
  rfl

theorem start_of_all (h : ∀ root ∈ roots, (sources.place? root).isSome = true) (log : Log) :
    sources.start roots log = (Worklist.offerAll {} (roots.filterMap sources.place?), { log }) := by
  obtain ⟨_, hstep, hfinds⟩ := sources.exists_finds_root
  unfold start
  rw [hstep, hfinds.filterMapM_of_all h]

theorem all_of_start (h : (sources.start roots log).2.log.errorCount = log.errorCount) :
    ∀ root ∈ roots, (sources.place? root).isSome = true := by
  obtain ⟨_, hstep, hfinds⟩ := sources.exists_finds_root
  unfold start at h
  rw [hstep] at h
  exact hfinds.all_of_clean h

theorem errorCount_le_start (sources : SourceSet) (roots : List String) (log : Log) :
    log.errorCount ≤ (sources.start roots log).2.log.errorCount := by
  obtain ⟨_, hstep, hfinds⟩ := sources.exists_finds_root
  unfold start
  rw [hstep]
  exact hfinds.errorCount_le roots { log }

/-- What a build without errors reads: all roots and imports are there,
and the files are read in the order of a walk from the roots. -/
theorem exists_walk_of_readAll
    (hclean : (sources.readAll set roots log).log.errorCount
      = log.errorCount) :
    (∀ root ∈ roots, (sources.place? root).isSome = true)
      ∧ ∃ order, Worklist.Walks (sources.leads set log.warningsAsErrors)
          (Worklist.offerAll {} (roots.filterMap sources.place?)) order
        ∧ (∀ place ∈ order, sources.Readable set log.warningsAsErrors place)
        ∧ sources.readAll set roots log
          = Reading.addAll set { log } (order.map sources.file) := by
  rw [readAll_eq_visitAll] at hclean ⊢
  have hlow := sources.errorCount_le_start roots log
  have hhigh := ((walkable_keeps set).visitAll
    (sources.start roots log).1 (sources.start roots log).2).errors_le
  rw [hclean] at hhigh
  have hroots := all_of_start (Nat.le_antisymm hhigh hlow)
  rw [start_of_all hroots] at hclean ⊢
  have hwalk := exists_walk_of_visitAll _ (sound_empty set log) hclean
  exact ⟨hroots, hwalk⟩

/-- The files of a walk from the roots are what a build reads, if they
can be read one after the other. -/
theorem readAll_of_walk (hroots : ∀ root ∈ roots, (sources.place? root).isSome = true)
    (hwalk : Worklist.Walks (sources.leads set log.warningsAsErrors)
      (Worklist.offerAll {} (roots.filterMap sources.place?)) order)
    (hall : ∀ place ∈ order, sources.Readable set log.warningsAsErrors place)
    (hclean : (Reading.addAll set { log }
      (order.map sources.file)).log.errorCount = log.errorCount) :
    sources.readAll set roots log = Reading.addAll set { log } (order.map sources.file) := by
  rw [readAll_eq_visitAll, start_of_all hroots]
  exact visitAll_of_walk hwalk rfl (sound_empty set log) hall hclean

-- ==== reached

/-- The files that are reached from the roots: what the roots lead to,
and what the imports lead to that are read in the text of a file that is
reached. -/
inductive Reached (sources : SourceSet) (set : InstructionSet)
    (strict : Bool) (roots : List String) : String → Prop where
  | root {path : String} {place : sources.Place} (hroot : path ∈ roots)
      (hplace : sources.locate path = .ok place) : Reached sources set strict roots place
  | step {file text : String} {wanted : Import} {place : sources.Place}
      (hfile : Reached sources set strict roots file) (htext : sources.load file = .ok text)
      (hwanted : wanted ∈ (Parsed.ofFile set strict file text).output.imports)
      (hplace : sources.locate (importPath file wanted.path) = .ok place) :
      Reached sources set strict roots place

theorem mem_leads {place target : sources.Place} :
    target ∈ sources.leads set strict place
      ↔ ∃ wanted ∈ (Parsed.ofFile set strict place (sources.text place)).output.imports,
        sources.locate (importPath place wanted.path) = .ok target := by
  unfold leads target?
  rw [List.mem_filterMap]
  exact exists_congr fun _ => and_congr_right fun _ => place?_eq_some

/-- A walk from the roots visits what is reached. -/
theorem mem_walk_iff (hwalk : Worklist.Walks (sources.leads set strict)
      (Worklist.offerAll {} (roots.filterMap sources.place?)) order)
    (hall : ∀ place ∈ order, sources.Readable set strict place) {file : String} :
    file ∈ order.map (·.val) ↔ sources.Reached set strict roots file := by
  rw [List.mem_map]
  constructor
  · rintro ⟨place, hplace, rfl⟩
    refine hwalk.forall_mem_of_offers (P := fun place =>
      sources.Reached set strict roots place) ?_ ?_ place hplace
    · intro place hplace
      obtain ⟨path, hpath, hplace⟩ := List.mem_filterMap.1 hplace
      exact .root hpath (place?_eq_some.1 hplace)
    · intro place hplace hreached target htarget
      obtain ⟨wanted, hwanted, htarget⟩ := mem_leads.1 htarget
      exact .step hreached (hall place hplace).load hwanted htarget
  · intro hreached
    induction hreached with
    | @root path place hroot hplace =>
      refine ⟨place, hwalk.mem_of_offered ?_, rfl⟩
      exact List.mem_filterMap.2 ⟨path, hroot, place?_eq_some.2 hplace⟩
    | @step file text wanted target hfile htext hwanted htarget ih =>
      obtain ⟨place, hplace, rfl⟩ := ih
      obtain rfl := text_of_load htext
      exact ⟨target, hwalk.closed_of_offers hplace (mem_leads.2 ⟨wanted, hwanted, htarget⟩), rfl⟩

-- ==== builds

variable {options : BuildOptions} {built : Compiled}

/-- The log that a build starts with. -/
def startLog (options : BuildOptions) : Log := { warningsAsErrors := options.warningsAsErrors }

/-- A build is what was linked without errors and could be written. -/
theorem compile_ok_iff :
    sources.compile set options roots = .ok built
      ↔ (sources.readAll set roots (startLog options)).link.log.errorCount = 0
        ∧ (sources.readAll set roots (startLog options)).link.write
          ⟨set, !options.omitDebugNames⟩ = .ok built := by
  have hcompile : sources.compile set options roots
      = if (sources.readAll set roots
          (startLog options)).link.log.hasErrors = true then
        .error (Reading.failure (sources.readAll set roots (startLog options)).link.toReport)
      else ((sources.readAll set roots (startLog options)).link.write
        ⟨set, !options.omitDebugNames⟩).mapError
          (sources.readAll set roots (startLog options)).link.formatFailure :=
    rfl
  have hzero : (sources.readAll set roots (startLog options)).link.log.hasErrors = true
      ↔ (sources.readAll set roots
        (startLog options)).link.log.errorCount ≠ 0 := by
    rw [← Nat.pos_iff_ne_zero]
    exact decide_eq_true_iff
  rw [hcompile]
  split
  · rename_i herrors
    exact ⟨nofun, fun h => absurd h.1 (hzero.1 herrors)⟩
  · rename_i herrors
    have hclean : (sources.readAll set roots (startLog options)).link.log.errorCount = 0 :=
      Decidable.not_not.1 fun h => herrors (hzero.2 h)
    cases (sources.readAll set roots (startLog options)).link.write
      ⟨set, !options.omitDebugNames⟩ with
    | ok => simp [Except.mapError, hclean]
    | error => simp [Except.mapError]

theorem readAll_clean_of_link (hlog : log.errorCount = 0)
    (h : (sources.readAll set roots log).link.log.errorCount = 0) :
    (sources.readAll set roots log).log.errorCount = log.errorCount := by
  have hle := (sources.readAll set roots log).errorCount_le_link
  omega

/-- All paths are looked up, or one of them is not there. -/
theorem mapM_locate_ok_iff {α : Type} {path : α → String} {items : List α}
    {places : List sources.Place} :
    items.mapM (fun item => sources.locate (path item)) = .ok places
      ↔ (∀ item ∈ items, (sources.place? (path item)).isSome = true)
        ∧ places = items.filterMap fun item =>
          sources.place? (path item) := by
  induction items generalizing places with
  | nil =>
    exact ⟨fun h => by cases h; exact ⟨nofun, rfl⟩, fun h => h.2 ▸ rfl⟩
  | cons item rest ih =>
    rw [List.mapM_cons, bind_ok_iff, List.forall_mem_cons]
    constructor
    · rintro ⟨first, hfirst, h⟩
      obtain ⟨_, hothers, h⟩ := bind_ok_iff.1 h
      obtain ⟨hall, rfl⟩ := ih.1 hothers
      cases h
      have hsome := place?_eq_some.2 hfirst
      refine ⟨⟨by rw [hsome]; rfl, hall⟩, ?_⟩
      rw [List.filterMap_cons, hsome]
    · rintro ⟨⟨hitem, hall⟩, rfl⟩
      obtain ⟨first, hfirst⟩ := Option.isSome_iff_exists.1 hitem
      refine ⟨first, place?_eq_some.1 hfirst, bind_ok_iff.2 ⟨_, ih.2 ⟨hall, rfl⟩, ?_⟩⟩
      rw [List.filterMap_cons, hfirst]
      rfl

/-- The files of a build are those of a walk from the roots. -/
theorem exists_walk_of_compile (h : sources.compile set options roots = .ok built) :
    (∀ root ∈ roots, (sources.place? root).isSome = true)
      ∧ ∃ order, Worklist.Walks (sources.leads set options.warningsAsErrors)
          (Worklist.offerAll {} (roots.filterMap sources.place?)) order
        ∧ (∀ place ∈ order, sources.Readable set options.warningsAsErrors place)
        ∧ built.files = order.map (·.val) := by
  obtain ⟨hlinked, hwrite⟩ := compile_ok_iff.1 h
  obtain ⟨hroots, order, hwalk, hall, hread⟩ :=
    exists_walk_of_readAll (readAll_clean_of_link rfl hlinked)
  refine ⟨hroots, order, hwalk, hall, ?_⟩
  obtain ⟨_, -, hwrite⟩ := bind_ok_iff.1 hwrite
  obtain ⟨_, -, hwrite⟩ := bind_ok_iff.1 hwrite
  cases hwrite
  show (sources.readAll set roots (startLog options)).files = _
  rw [hread, files_addAll, List.map_map]
  rfl

/-- Reading, round by round. -/
theorem exists_rounds (sources : SourceSet) (set : InstructionSet)
    (roots : List String) (log : Log) :
    ∃ seen, (Worklist.round (sources.readFile set))^[sources.places.length]
        (sources.start roots log)
      = (⟨seen, []⟩, sources.readAll set roots log) :=
  Worklist.rounds_visitAll (Worklist.size_offers_le _)

theorem readAll_eq_rounds (sources : SourceSet) (set : InstructionSet)
    (roots : List String) (log : Log) :
    sources.readAll set roots log
      = ((Worklist.round (sources.readFile set))^[sources.places.length]
        (sources.start roots log)).2 := by
  obtain ⟨_, hrounds⟩ := sources.exists_rounds set roots log
  rw [hrounds]

/-- Files that declare nothing are built if they can be read. -/
theorem exists_compile_of_empty
    (hlinked : (sources.readAll set roots (startLog options)).link.log.errorCount = 0)
    (hprogram : (sources.readAll set roots (startLog options)).link.program = {}) :
    ∃ built, sources.compile set options roots = .ok built
      ∧ built.files
        = (sources.readAll set roots (startLog options)).link.files := by
  obtain ⟨built, hwrite, hfiles⟩ : ∃ built, (sources.readAll set roots
        (startLog options)).link.write ⟨set, !options.omitDebugNames⟩ = .ok built ∧ built.files
        = (sources.readAll set roots (startLog options)).link.files := by
    unfold Reading.write
    rw [hprogram]
    cases options.omitDebugNames with
    | false => exact ⟨_, rfl, rfl⟩
    | true => exact ⟨_, rfl, rfl⟩
  exact ⟨built, compile_ok_iff.2 ⟨hlinked, hwrite⟩, hfiles⟩

/-- Every import is followed, and no file is read twice, whatever imports
what. Reading is over after as many rounds as there are places; and the
files of a build are different ones, first the different roots in order,
and all in all those that are reached from the roots. -/
theorem imports_followed_once (sources : SourceSet)
    (set : InstructionSet) (options : BuildOptions) (roots : List String) :
    (∃ seen, (Worklist.round (sources.readFile set))^[sources.places.length]
        (sources.start roots (startLog options))
      = (⟨seen, []⟩, sources.readAll set roots (startLog options)))
    ∧ ∀ built, sources.compile set options roots = .ok built → built.files.Nodup
        ∧ (∃ places, roots.mapM sources.locate = .ok places
          ∧ places.eraseDups.map (·.val) <+: built.files)
        ∧ ∀ file, file ∈ built.files
          ↔ sources.Reached set options.warningsAsErrors roots file := by
  refine ⟨sources.exists_rounds set roots _, fun built hbuilt => ?_⟩
  obtain ⟨hroots, order, hwalk, hall, hfiles⟩ := exists_walk_of_compile hbuilt
  rw [hfiles]
  refine ⟨?_, ⟨_, mapM_locate_ok_iff.2 ⟨hroots, rfl⟩, ?_⟩, fun file => mem_walk_iff hwalk hall⟩
  · exact hwalk.nodup_of_offers.map Subtype.val_injective
  · obtain ⟨found, horder, -⟩ := hwalk.exists_append
    rw [horder, Worklist.queue_offerAll_empty, List.map_append]
    exact List.prefix_append ..

/-- Files by folded path; of several under one path the first counts. -/
def ofList (files : List (String × String)) : SourceSet where
  places := files.map Prod.fst
  locate path := if h : Path.fold path ∈ files.map Prod.fst then
      .ok ⟨Path.fold path, h⟩
    else .error (.unknownSource path)
  load path := match files.lookup (Path.fold path) with
    | some text => .ok text
    | none => .error (.unknownSource path)

end SourceSet

/-- Texts are found as in a plain list. -/
theorem SourceTexts.sources_eq_ofList (texts : SourceTexts) :
    texts.sources = .ofList texts.files := by
  have hload : texts.load = (SourceSet.ofList texts.files).load := by
    funext path
    unfold load SourceSet.ofList
    cases htext : texts.files.lookup (Path.fold path) with
    | none | some text => simp only [text?_eq, htext]
  have hlocate : texts.locate = (SourceSet.ofList texts.files).locate := by
    funext path
    unfold locate SourceSet.ofList
    simp only
    split
    · rename_i text hfound
      rw [dif_pos (mem_of_text? hfound)]
    · rename_i hnone
      rw [dif_neg]
      intro hmem
      rw [text?_eq, List.lookup_eq_none_iff] at hnone
      obtain ⟨entry, hentry, hsame⟩ := List.mem_map.1 hmem
      have hdiffers := hnone entry hentry
      rw [hsame, bne_self_eq_false] at hdiffers
      cases hdiffers
  unfold sources
  rw [hload, hlocate]
  rfl

namespace Sample

/-- Three files. The first two import each other under other spellings,
one of them imports itself, and the third is imported by the second. -/
def ring : SourceTexts :=
  .ofFiles [("main.casm", ".import \"./lib/../lib/a.casm\"\n"
        ++ ".import \"main.casm\"\n"),
    ("lib/a.casm", ".import \"../main.casm\"\n.import \"b.casm\"\n"), ("lib/b.casm", "; nothing\n")]

def ringRoots : List String := ["main.casm", "lib//b.casm", "./main.casm"]

theorem exists_compile_ring :
    ∃ built, ring.sources.compile .standard {} ringRoots = .ok built
      ∧ built.files = ["main.casm", "lib/b.casm", "lib/a.casm"] := by
  have hread := (SourceSet.ofList ring.files).readAll_eq_rounds .standard
    ringRoots (SourceSet.startLog {})
  rw [ring.sources_eq_ofList]
  obtain ⟨built, hbuilt, hfiles⟩ := @SourceSet.exists_compile_of_empty
    (.ofList ring.files) .standard ringRoots {}
    (by rw [hread]; decide +kernel) (by rw [hread]; decide +kernel)
  refine ⟨built, hbuilt, hfiles.trans ?_⟩
  rw [hread]
  decide +kernel

/-- The three files are built, each read once, though one root is given
twice and the files import each other. -/
theorem imports_followed_once_ring :
    ∃ built, ring.sources.compile .standard {} ringRoots = .ok built
      ∧ built.files = ["main.casm", "lib/b.casm", "lib/a.casm"]
      ∧ built.files.Nodup
      ∧ (∃ places, ringRoots.mapM ring.sources.locate = .ok places
        ∧ places.eraseDups.map (·.val) <+: built.files)
      ∧ ∀ file, file ∈ built.files
        ↔ ring.sources.Reached .standard false ringRoots file := by
  obtain ⟨built, hbuilt, hfiles⟩ := exists_compile_ring
  exact ⟨built, hbuilt, hfiles, (SourceSet.imports_followed_once
    ring.sources .standard {} ringRoots).2 built hbuilt⟩

end Sample

end StackAsm
