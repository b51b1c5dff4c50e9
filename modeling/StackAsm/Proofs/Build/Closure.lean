/-
The closure under imports by line, against what a build reads. A closure
that is found is a walk as well, along what the lines of each file import
(`SourceSet.closure_ok_iff`). A line imports a path if it starts with
`.import` and the path in quotes (`importTarget?_eq_some_iff`); a build
reads an import wherever a statement may stand. So the closure has every
file of a build if each import that is read also starts a line
(`SourceSet.closure_covers_build`), and otherwise it may miss some.
-/
import StackAsm.Proofs.Build.Gathering
import StackAsm.Proofs.Program.Lookup

namespace StackAsm

-- ==== lines

/-- Whether a line starts with the import of a path: `.import` behind
blanks, and behind more blanks the path in quotes. -/
def StartsWithImport (path line : String) : Prop :=
  ∃ indent gap rest, (∀ c ∈ indent, Text.isBlank c = true)
      ∧ (∀ c ∈ gap, Text.isBlank c = true)
      ∧ '"' ∉ path.toList
      ∧ line.toList = indent ++ (".import".toList
        ++ (gap ++ '"' :: (path.toList ++ '"' :: rest)))

theorem dropFront?_eq_some_iff {front text rest : List Char} :
    dropFront? front text = some rest ↔ text = front ++ rest := by
  unfold dropFront?
  constructor
  · intro h
    split at h
    · rename_i hfront
      obtain ⟨_, rfl⟩ := List.isPrefixOf_iff_prefix.1 hfront
      rw [List.drop_left] at h
      cases h
      rfl
    · cases h
  · rintro rfl
    rw [if_pos (List.isPrefixOf_iff_prefix.2 (List.prefix_append ..)), List.drop_left]

theorem trimStart_of_blanks {blanks text : List Char}
    (hblanks : ∀ c ∈ blanks, Text.isBlank c = true)
    (htext : ∀ c ∈ text.head?, Text.isBlank c = false) :
    Text.trimStart (blanks ++ text) = text := by
  unfold Text.trimStart
  rw [List.dropWhile_append_of_pos hblanks]
  cases text with
  | nil => rfl
  | cons c =>
    have hc := htext c rfl
    rw [List.dropWhile_cons_of_neg (Bool.eq_false_iff.1 hc)]

theorem exists_blanks (text : List Char) :
    ∃ blanks, (∀ c ∈ blanks, Text.isBlank c = true)
      ∧ text = blanks ++ Text.trimStart text :=
  ⟨text.takeWhile Text.isBlank, fun _ hc => List.mem_takeWhile_imp hc,
    List.takeWhile_append_dropWhile.symm⟩

/-- Which lines import which path. -/
theorem importTarget?_eq_some_iff {line path : String} :
    importTarget? line = some path ↔ StartsWithImport path line := by
  unfold importTarget?
  constructor
  · intro h
    obtain ⟨behind, hword, h⟩ := Option.bind_eq_some_iff.1 h
    obtain ⟨_, hquote, h⟩ := Option.bind_eq_some_iff.1 h
    obtain ⟨indent, hindent, hline⟩ := exists_blanks line.toList
    obtain ⟨gap, hgap, hbehind⟩ := exists_blanks behind
    rw [dropFront?_eq_some_iff.1 hword] at hline
    rw [dropFront?_eq_some_iff.1 hquote] at hbehind
    split at h
    · cases h
    · rename_i target more hmore hspan
      obtain ⟨c, rest, rfl⟩ := List.exists_cons_of_ne_nil hmore
      obtain ⟨hfree, hstop, rfl⟩ := Text.span_bne_iff.1 hspan
      obtain rfl := hstop c rfl
      cases h
      have htarget : (String.ofList target).toList = target := String.toList_ofList
      rw [hbehind] at hline
      refine ⟨indent, gap, rest, hindent, hgap, ?_, ?_⟩
      · rwa [htarget]
      · rw [htarget]
        exact hline
  · rintro ⟨indent, gap, rest, hindent, hgap, hfree, hline⟩
    rw [hline, trimStart_of_blanks hindent (by rintro _ ⟨rfl⟩; rfl)]
    refine Option.bind_eq_some_iff.2 ⟨_, dropFront?_eq_some_iff.2 rfl, ?_⟩
    rw [trimStart_of_blanks hgap (by rintro _ ⟨rfl⟩; rfl)]
    refine Option.bind_eq_some_iff.2 ⟨path.toList ++ '"' :: rest, dropFront?_eq_some_iff.2 rfl, ?_⟩
    have hspan : (path.toList ++ '"' :: rest).span (· != '"') = (path.toList, '"' :: rest) :=
      Text.span_bne_iff.2 ⟨hfree, by simp, rfl⟩
    rw [hspan]
    simp only [String.ofList_toList]

instance (path line : String) : Decidable (StartsWithImport path line) :=
  decidable_of_iff _ importTarget?_eq_some_iff

-- ==== walks

namespace SourceSet

variable {sources : SourceSet} {place : sources.Place}

/-- The places that the lines of a file lead to. -/
def scans (sources : SourceSet) (place : sources.Place) :
    List sources.Place := (importTargets (sources.text place)).filterMap fun target =>
    sources.place? (importPath place target)

/-- Whether a file is there and so are the files its lines import. -/
structure Scannable (sources : SourceSet) (place : sources.Place) : Prop where
  load : sources.load place = .ok (sources.text place)
  targets : ∀ target ∈ importTargets (sources.text place),
    (sources.place? (importPath place target)).isSome = true

section Lift

variable {α β ε σ : Type} {state after : σ}

theorem run_lift_ok_iff {step : Except ε α} {a : α} :
    (liftM step : StateT σ (Except ε) α).run state = .ok (a, after)
      ↔ step = .ok a ∧ after = state := by
  cases step with
  | error => exact ⟨nofun, fun h => nomatch h.1⟩
  | ok =>
    constructor
    · intro h
      cases h
      exact ⟨rfl, rfl⟩
    · rintro ⟨⟨⟩, rfl⟩
      rfl

theorem run_mapM_lift_ok_iff {f : α → Except ε β} {items : List α} {found : List β} :
    (items.mapM fun item => (liftM (f item) : StateT σ (Except ε) β)).run state = .ok (found, after)
      ↔ items.mapM f = .ok found ∧ after = state := by
  induction items generalizing found with
  | nil =>
    rw [List.mapM_nil, List.mapM_nil]
    exact @run_lift_ok_iff _ _ _ state after (pure []) found
  | cons item rest ih =>
    rw [List.mapM_cons, List.mapM_cons, StateT.run_bind, bind_ok_iff, bind_ok_iff]
    constructor
    · rintro ⟨⟨first, _⟩, hstep, h⟩
      obtain ⟨hfirst, rfl⟩ := run_lift_ok_iff.1 hstep
      rw [StateT.run_bind] at h
      obtain ⟨⟨others, _⟩, hsteps, h⟩ := bind_ok_iff.1 h
      cases h
      obtain ⟨hothers, rfl⟩ := ih.1 hsteps
      exact ⟨⟨first, hfirst, bind_ok_iff.2 ⟨others, hothers, rfl⟩⟩, rfl⟩
    · rintro ⟨⟨first, hfirst, h⟩, rfl⟩
      obtain ⟨others, hothers, h⟩ := bind_ok_iff.1 h
      cases h
      refine ⟨(first, after), run_lift_ok_iff.2 ⟨hfirst, rfl⟩, ?_⟩
      rw [StateT.run_bind]
      exact bind_ok_iff.2 ⟨(others, after), ih.2 ⟨hothers, rfl⟩, rfl⟩

end Lift

/-- What scanning a file gives. -/
theorem run_scan_ok_iff {before after : List String} {found : List sources.Place} :
    (sources.scan place).run before = .ok (found, after)
      ↔ sources.Scannable place ∧ found = sources.scans place
        ∧ after = before ++ [place.val] := by
  unfold scan
  rw [StateT.run_bind, bind_ok_iff]
  constructor
  · rintro ⟨⟨_, _⟩, hstep, h⟩
    obtain ⟨hload, rfl⟩ := run_lift_ok_iff.1 hstep
    rw [StateT.run_bind] at h
    obtain ⟨⟨_, _⟩, hsteps, h⟩ := bind_ok_iff.1 h
    obtain ⟨htargets, rfl⟩ := run_mapM_lift_ok_iff.1 hsteps
    obtain ⟨hall, rfl⟩ := mapM_locate_ok_iff.1 htargets
    obtain rfl := text_of_load hload
    cases h
    exact ⟨⟨hload, hall⟩, rfl, rfl⟩
  · rintro ⟨⟨hload, hall⟩, rfl, rfl⟩
    refine ⟨(sources.text place, before), run_lift_ok_iff.2 ⟨hload, rfl⟩, ?_⟩
    rw [StateT.run_bind]
    exact bind_ok_iff.2 ⟨(sources.scans place, before),
      run_mapM_lift_ok_iff.2 ⟨mapM_locate_ok_iff.2 ⟨hall, rfl⟩, rfl⟩, rfl⟩

open Worklist in
theorem run_visitAll_scan_ok_iff {work : Worklist sources} {before files : List String} {a : Unit} :
    (visitAll sources.scan work).run before = .ok (a, files)
      ↔ ∃ order, Walks sources.scans work order
        ∧ (∀ place ∈ order, sources.Scannable place)
        ∧ files = before ++ order.map (·.val) := by
  -- as in a walk, the places not seen yet become fewer
  generalize hsize : work.size = size
  induction size using Nat.strongRecOn generalizing work before with
  | ind size ih =>
    cases hqueue : work.queue with
    | nil =>
      rw [visitAll_eq_pure _ hqueue]
      constructor
      · intro h
        cases h
        exact ⟨[], .done hqueue, List.forall_mem_nil _, (List.append_nil _).symm⟩
      · rintro ⟨order, hwalk, -, rfl⟩
        cases hwalk with
        | done => rw [List.map_nil, List.append_nil]; rfl
        | visit hmore => rw [hqueue] at hmore; cases hmore
    | cons place =>
      rw [visitAll_eq_bind _ hqueue, StateT.run_bind, bind_ok_iff]
      have hrest := @ih _ (hsize ▸ size_offerAll_lt hqueue
        (sources.scans place)) _ (before ++ [place.val]) rfl
      constructor
      · rintro ⟨⟨_, _⟩, hscan, h⟩
        obtain ⟨hplace, rfl, rfl⟩ := run_scan_ok_iff.1 hscan
        obtain ⟨order, hwalk, hall, rfl⟩ := hrest.1 h
        refine ⟨place :: order, .visit hqueue hwalk, List.forall_mem_cons.2 ⟨hplace, hall⟩, ?_⟩
        rw [List.map_cons, List.append_assoc, List.singleton_append]
      · rintro ⟨order, hwalk, hall, rfl⟩
        cases hwalk with
        | done hnone => rw [hqueue] at hnone; cases hnone
        | visit hmore hwalk =>
          rw [hqueue] at hmore
          cases hmore
          rw [List.forall_mem_cons] at hall
          refine ⟨_, run_scan_ok_iff.2 ⟨hall.1, rfl, rfl⟩, hrest.2 ⟨_, hwalk, hall.2, ?_⟩⟩
          rw [List.map_cons, List.append_assoc, List.singleton_append]

/-- A closure that is found is a walk from the roots along what the lines
of the files import. -/
theorem closure_ok_iff {roots files : List String} :
    sources.closure roots = .ok files
      ↔ (∀ root ∈ roots, (sources.place? root).isSome = true)
        ∧ ∃ order, Worklist.Walks sources.scans
            (Worklist.offerAll {} (roots.filterMap sources.place?)) order
          ∧ (∀ place ∈ order, sources.Scannable place)
          ∧ files = order.map (·.val) := by
  unfold closure
  rw [bind_ok_iff]
  constructor
  · rintro ⟨_, hplaces, h⟩
    obtain ⟨hroots, rfl⟩ := mapM_locate_ok_iff.1 hplaces
    obtain ⟨⟨_, _⟩, hvisit, h⟩ := bind_ok_iff.1 h
    cases h
    exact ⟨hroots, run_visitAll_scan_ok_iff.1 hvisit⟩
  · rintro ⟨hroots, hwalk⟩
    exact ⟨_, mapM_locate_ok_iff.2 ⟨hroots, rfl⟩, bind_ok_iff.2
      ⟨((), files), run_visitAll_scan_ok_iff.2 hwalk, rfl⟩⟩

instance (place : sources.Place) : Decidable (sources.Scannable place) :=
  decidable_of_iff (sources.load place = .ok (sources.text place)
      ∧ ∀ target ∈ importTargets (sources.text place),
        (sources.place? (importPath place target)).isSome = true)
    ⟨fun ⟨hload, htargets⟩ => ⟨hload, htargets⟩, fun h => ⟨h.load, h.targets⟩⟩

/-- The places that are visited by line from some roots. -/
def scanned (sources : SourceSet) (roots : List String) :
    List sources.Place :=
  Worklist.visits sources.scans sources.places.length
    (Worklist.offerAll {} (roots.filterMap sources.place?))

theorem closure_of_scannable {roots : List String}
    (hroots : ∀ root ∈ roots, (sources.place? root).isSome = true)
    (hall : ∀ place ∈ sources.scanned roots, sources.Scannable place) :
    sources.closure roots = .ok ((sources.scanned roots).map (·.val)) :=
  closure_ok_iff.2 ⟨hroots, _, Worklist.walks_visits _ (Worklist.size_offers_le _), hall, rfl⟩

-- ==== builds

/-- An import that starts a line of its file is followed by line. -/
theorem mem_scans {target : sources.Place} {wanted : Import}
    (hline : ∃ line ∈ Text.lines (sources.text place), StartsWithImport wanted.path line)
    (htarget : sources.locate (importPath place wanted.path)
      = .ok target) :
    target ∈ sources.scans place := by
  obtain ⟨line, hmem, hline⟩ := hline
  have hpath : wanted.path ∈ importTargets (sources.text place) :=
    List.mem_filterMap.2 ⟨line, hmem, importTarget?_eq_some_iff.2 hline⟩
  exact List.mem_filterMap.2 ⟨_, hpath, place?_eq_some.2 htarget⟩

/-- If each import that a build reads starts a line of its file, then the
closure of the roots by line has all files of the build. -/
theorem closure_covers_build (sources : SourceSet) (set : InstructionSet)
    (options : BuildOptions) {roots files : List String} {built : Compiled}
    (hbuilt : sources.compile set options roots = .ok built)
    (hfiles : sources.closure roots = .ok files)
    (hlines : ∀ file ∈ built.files, ∀ text, sources.load file = .ok text →
      ∀ wanted ∈ (Parsed.ofFile set options.warningsAsErrors file text).output.imports,
        ∃ line ∈ Text.lines text, StartsWithImport wanted.path line) :
    ∀ file ∈ built.files, file ∈ files := by
  obtain ⟨-, order, hwalk, hall, hsame⟩ := exists_walk_of_compile hbuilt
  obtain ⟨hroots, found, hscan, -, rfl⟩ := closure_ok_iff.1 hfiles
  rw [hsame] at hlines ⊢
  rw [List.forall_mem_map] at hlines ⊢
  intro place hplace
  refine List.mem_map_of_mem ?_
  revert place
  refine hwalk.forall_mem_of_offers (fun place hoffered => hscan.mem_of_offered hoffered)
    fun place hplace hfound target htarget => ?_
  obtain ⟨wanted, hwanted, htarget⟩ := mem_leads.1 htarget
  have hline := hlines place hplace _ (hall place hplace).load wanted hwanted
  exact hscan.closed_of_offers hfound (mem_scans hline htarget)

end SourceSet

namespace Sample

theorem closure_ring :
    let files := ["main.casm", "lib/b.casm", "lib/a.casm"]
    ring.sources.closure ringRoots = .ok files
      ∧ ∀ file ∈ files, ∀ text, ring.sources.load file = .ok text →
        ∀ wanted ∈ (Parsed.ofFile .standard false file text).output.imports,
          ∃ line ∈ Text.lines text, StartsWithImport wanted.path line := by
  rw [ring.sources_eq_ofList, SourceSet.closure_of_scannable]
  · refine ⟨by decide +kernel, fun file hfile text htext => ?_⟩
    obtain rfl := SourceSet.text_of_load htext
    revert file
    decide +kernel
  · decide +kernel
  · decide +kernel

/-- The closure has the three files that import each other. -/
theorem closure_covers_build_ring :
    ∃ built files, ring.sources.compile .standard {} ringRoots = .ok built
      ∧ ring.sources.closure ringRoots = .ok files
      ∧ (∀ file ∈ built.files, ∀ text, ring.sources.load file = .ok text →
        ∀ wanted ∈ (Parsed.ofFile .standard false file text).output.imports,
          ∃ line ∈ Text.lines text, StartsWithImport wanted.path line)
      ∧ ∀ file ∈ built.files, file ∈ files := by
  obtain ⟨built, hbuilt, hfiles⟩ := exists_compile_ring
  obtain ⟨hclosure, hlines⟩ := closure_ring
  rw [← hfiles] at hlines
  exact ⟨built, _, hbuilt, hclosure, hlines,
    SourceSet.closure_covers_build ring.sources .standard {} hbuilt hclosure hlines⟩

/-- Three files, two of them imported on one line. -/
def pair : SourceTexts :=
  .ofFiles [("main.casm", ".import \"a.casm\" .import \"b.casm\"\n"),
    ("a.casm", ""), ("b.casm", "")]

/-- Of two imports on one line the closure follows the first, and a build
reads both. -/
theorem closure_misses_second_import :
    ∃ built files, pair.sources.compile .standard {} ["main.casm"]
        = .ok built
      ∧ pair.sources.closure ["main.casm"] = .ok files
      ∧ "b.casm" ∈ built.files ∧ "b.casm" ∉ files := by
  have hread := (SourceSet.ofList pair.files).readAll_eq_rounds .standard
    ["main.casm"] (SourceSet.startLog {})
  rw [pair.sources_eq_ofList]
  obtain ⟨built, hbuilt, hfiles⟩ := @SourceSet.exists_compile_of_empty
    (.ofList pair.files) .standard ["main.casm"] {}
    (by rw [hread]; decide +kernel) (by rw [hread]; decide +kernel)
  refine ⟨built, _, hbuilt, SourceSet.closure_of_scannable
    (by decide +kernel) (by decide +kernel), ?_, by decide +kernel⟩
  rw [hfiles, hread]
  decide +kernel

end Sample

end StackAsm
