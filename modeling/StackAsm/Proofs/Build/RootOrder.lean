/-
The order of roots. A build reads its files in an order that depends on
the order of its roots, but each file is read as if it were alone, and a
file is refused only for a type that another one has too. So whichever
file comes first, the same is read (`Reading.Gathers`), up to the order
of namespaces and types. References are looked up and branches are aimed
only when all is read, so linking keeps to that
(`Reading.Sound.link_alike`), and writing succeeds for one order if it
does for another.
-/
import StackAsm.Proofs.Build.Gathering
import StackAsm.Proofs.Build.Writing
import StackAsm.Proofs.Container.Order

namespace StackAsm

variable {set : InstructionSet}

-- ==== linking

/-- Members of which linking has nothing to report: places can be counted
and every label has one. -/
structure ReadyMembers (set : InstructionSet) (fields : List Field)
    (methods : List Method) : Prop where
  counted : CountedMembers set fields methods
  placed : ∀ method ∈ methods, ∀ label ∈ method.body.labels, label.offset.isSome = true

theorem ReadyMembers.aims {fields : List Field}
    {methods others : List Method} (h : ReadyMembers set fields methods)
    (haims : Method.AimsEach methods others) :
    ReadyMembers set fields others := by
  refine ⟨h.counted.aims haims, fun other hother => ?_⟩
  obtain ⟨method, hmethod, _, -, rfl⟩ := haims other hother
  exact h.placed method hmethod

theorem ReadyMembers.mapReferences {fields : List Field}
    {methods : List Method} (h : ReadyMembers set fields methods) (f : Reference → Reference) :
    ReadyMembers set (fields.map (Field.mapReference f))
      (methods.map (Method.mapReferences f)) := by
  refine ⟨h.counted.mapReferences f, fun _ hother => ?_⟩
  obtain ⟨method, hmethod, rfl⟩ := List.mem_map.1 hother
  exact h.placed method hmethod

/-- Fixes of methods whose labels are all placed report nothing. -/
theorem Program.log_fixBranches {program : Program} {fixes todo : List BranchFixes}
    (hlink : Linkable program.entries fixes)
    (htodo : ∀ fix ∈ todo, fix ∈ fixes) (h : program.All (ReadyMembers set))
    (log : Log) : (program.fixBranches log todo).2.1 = log := by
  induction todo generalizing program with
  | nil => rfl
  | cons fix rest ih =>
    obtain ⟨hfix, hrest⟩ := List.forall_mem_cons.1 htodo
    obtain ⟨_, method, _, _, hfixed, hlog⟩ := fixMethod_eq hlink hfix log
    have hmembers := h.of_find? hfixed.found
    have hmethod := List.mem_of_getElem? hfixed.place
    have hcomplaints := BranchFixes.complaints_apply hfixed.suits
      (Nat.le_of_lt (hmembers.counted.small method hmethod))
      fun _ _ _ => (hmembers.counted.tidy.methods method hmethod).index_mem_of_isBranch
    rw [(BranchFixes.unplaced_eq_nil hfixed.suits.lines).2
      (hmembers.placed method hmethod)] at hcomplaints
    rw [hcomplaints] at hlog
    show (Program.fixBranches _ (program.fixMethod log fix).2.1 rest).2.1 = log
    rw [hlog]
    exact ih (hfixed.linkable hlink hfix) hrest (h.of_aim ReadyMembers.aims hfixed.aim)

/-- Where every reference is resolved there is nothing to complain
about. -/
theorem Declarations.complaints_eq_nil {table : Declarations} {references : List Reference}
    (h : ∀ reference ∈ references, reference.isPending = false) (reported : Table MissingKey Unit) :
    table.complaints reported references = [] := by
  induction references with
  | nil => rfl
  | cons first rest ih =>
    rw [List.forall_mem_cons] at h
    cases first with
    | resolved => exact ih h.2
    | pending => cases h.1

namespace Reading

variable {set : InstructionSet} {reading other : Reading}

/-- Linking reports nothing where all names are found and all labels are
placed. -/
theorem Sound.log_link (h : reading.Sound set) (hready : reading.program.All (ReadyMembers set))
    (hfound : ∀ reference ∈ reading.program.references,
      (reading.program.declarations.settle reference).isPending = false) :
    reading.link.log = reading.log := by
  let f := reading.program.declarations.settle
  have hresolve : (reading.program.resolve reading.log).2.2 = reading.log := by
    show reading.log.reportAll (Declarations.complaints _ _ _) = _
    rw [Declarations.complaints_eq_nil fun _ hmem => ?_]
    · rfl
    · obtain ⟨old, hold, rfl⟩ := List.mem_map.1 hmem
      exact hfound old hold
  exact (Program.log_fixBranches (Program.linkable_mapReferences f h.linkable) (fun _ hfix => hfix)
    (hready.mapReferences f fun _ _ hmembers => hmembers.mapReferences f) _).trans hresolve

/-- Where linking reports nothing, all names are found. -/
theorem found_of_link (h : reading.link.log.errorCount = reading.log.errorCount) :
    ∀ reference ∈ reading.program.references,
      (reading.program.declarations.settle reference).isPending = false :=
  Declarations.settled_of_complaints
    (Log.eq_nil_of_reportAll (Declarations.isError_complaints _ _ _) (errorCount_resolve h))

/-- A program that is linked without errors is the program that was read,
its references settled and its branches aimed. -/
theorem Sound.link_eq (h : reading.Sound set)
    (herrors : reading.link.log.errorCount = reading.log.errorCount)
    (hsmall : ∀ entry ∈ reading.link.program.methods,
      entry.2.body.instructions.length < UInt32.size) :
    reading.link.program = (reading.program.mapReferences
      reading.program.declarations.settle).aim := by
  have hlinked := h.link herrors
  have haimed : reading.link.program.aim = reading.link.program :=
    Program.aim_eq_self fun entry hentry =>
      (Program.settled_of_linkable hlinked.linkable entry hentry).aimed
        (Nat.le_of_lt (hsmall entry hentry))
  rw [← haimed]
  exact Program.aim_fixBranches (Program.linkable_mapReferences _ h.linkable) (fun _ hfix => hfix) _

/-- What is read of methods that are linked without errors. -/
theorem Sound.ready_of_link (h : reading.Sound set)
    (herrors : reading.link.log.errorCount = reading.log.errorCount)
    (hsmall : ∀ entry ∈ reading.link.program.methods,
      entry.2.body.instructions.length < UInt32.size) :
    ∀ entry ∈ reading.program.methods, entry.2.body.instructions.length < UInt32.size
        ∧ ∀ label ∈ entry.2.body.labels, label.offset.isSome = true := by
  have hlinked := h.link herrors
  have hequal := h.link_eq herrors hsmall
  intro entry hentry
  let linked : String × Method := (entry.1, (entry.2.mapReferences
    reading.program.declarations.settle).aim)
  have hmem : linked ∈ reading.link.program.methods := by
    rw [hequal, Program.methods_aim, Program.methods_mapReferences, List.map_map]
    exact List.mem_map.2 ⟨entry, hentry, rfl⟩
  have hlength := hsmall linked hmem
  have hsettled := Program.settled_of_linkable hlinked.linkable linked hmem
  change ((entry.2.body.instructions.map _).map _).length < _ at hlength
  rw [List.length_map, List.length_map] at hlength
  exact ⟨hlength, hsettled.placed⟩

/-- If one of two readings that differ in order only is linked without
errors, so is the other, and the programs differ in order only. -/
theorem Sound.link_alike (h : reading.Sound set) (hother : other.Sound set)
    (halike : reading.program.Alike other.program)
    (herrors : reading.link.log.errorCount = reading.log.errorCount)
    (hsmall : ∀ entry ∈ reading.link.program.methods,
      entry.2.body.instructions.length < UInt32.size) :
    other.link.log = other.log ∧ reading.link.program.Alike other.link.program := by
  have hready := h.ready_of_link herrors hsmall
  have hmethods : ∀ entry ∈ other.program.methods, entry.2.body.instructions.length < UInt32.size
        ∧ ∀ label ∈ entry.2.body.labels, label.offset.isSome = true :=
    fun entry hentry => hready entry (halike.methods.mem_iff.2 hentry)
  have hcounted := counted_of_methods hother fun entry hentry => (hmethods entry hentry).1
  have hmembers : other.program.All (ReadyMembers set) := by
    refine .of_forall_types fun entry hentry =>
      ⟨hcounted.of_types hentry, fun method hmethod => ?_⟩
    exact (hmethods (entry.1, method) (Program.mem_methods hentry hmethod)).2
  have hlog := hother.log_link hmembers fun reference hmem => by
    rw [← halike.settle]
    exact found_of_link herrors reference (halike.references.mem_iff.2 hmem)
  have hlinked : ∀ entry ∈ other.link.program.methods,
      entry.2.body.instructions.length < UInt32.size := by
    intro entry hentry
    obtain ⟨_, _, hown, hmethod⟩ := (hother.counted_link hcounted).of_methods hentry
    exact hown.small entry.2 hmethod
  refine ⟨hlog, ?_⟩
  rw [h.link_eq herrors hsmall, hother.link_eq (by rw [hlog]) hlinked, halike.settle]
  exact (halike.mapReferences _).aim

-- ==== files

/-- The program of a file that is read by itself. -/
def ownProgram (set : InstructionSet) (strict : Bool) (file : String × String) : Program :=
  (Parsed.ofFile set strict file.1 file.2).program

/-- Whether what was read is what the files have by themselves, put
together. -/
structure Gathers (set : InstructionSet) (strict : Bool)
    (files : List (String × String)) (reading : Reading) : Prop where
  sound : reading.Sound set
  strict_eq : reading.log.warningsAsErrors = strict
  clean : ∀ file ∈ files, (Parsed.ofFile set strict file.1 file.2).log.errorCount = 0
  spread : reading.program.spread.Perm
    (files.flatMap fun file => (ownProgram set strict file).spread)
  externals : ∀ path, path ∈ reading.program.externals
    ↔ ∃ file ∈ files, path ∈ (ownProgram set strict file).externals
  aliases : reading.program.aliases = files.flatMap fun file => (ownProgram set strict file).aliases

variable {strict : Bool} {files before : List (String × String)}

theorem gathers_empty (set : InstructionSet) (log : Log) :
    Gathers set log.warningsAsErrors [] { log } where
  sound := sound_empty set log
  strict_eq := rfl
  clean := nofun
  spread := .refl _
  externals path := by
    show path ∈ ([] : List String) ↔ _
    simp only [List.not_mem_nil, false_and, exists_false]
  aliases := rfl

theorem Gathers.entries (h : Gathers set strict files reading) :
    reading.program.entries.Perm
      (files.flatMap fun file => (ownProgram set strict file).entries) := by
  simp only [Program.entries_eq_spread]
  rw [← List.flatMap_assoc]
  exact h.spread.flatMap_right _

/-- A file that is read without errors adds what it has by itself. -/
theorem Gathers.add (h : Gathers set strict files reading) {file : String × String}
    (hclean : (reading.add set file.1 file.2).1.log.errorCount
      = reading.log.errorCount) :
    Gathers set strict (files ++ [file]) (reading.add set file.1 file.2).1 := by
  obtain ⟨hown, -, hjoined⟩ := Program.parse_alone h.sound.linkable h.sound.listed hclean
  rw [h.strict_eq] at hown hjoined
  refine ⟨(reading.extends_add set file.1 file.2).sound h.sound,
    (strict_add ..).trans h.strict_eq, ?_, ?_, fun path => ?_, ?_⟩
  · rw [List.forall_mem_append, List.forall_mem_singleton]
    exact ⟨h.clean, hown⟩
  · rw [List.flatMap_append, List.flatMap_singleton]
    exact hjoined.spread.trans (h.spread.append_right _)
  · refine (hjoined.externals path).trans ?_
    simp only [h.externals, List.mem_append, List.mem_singleton,
      or_and_right, exists_or, exists_eq_left]
    rfl
  · rw [List.flatMap_append, List.flatMap_singleton]
    exact hjoined.aliases.trans (congrArg (· ++ _) h.aliases)

theorem Gathers.addAll (h : Gathers set strict before reading)
    (hclean : (reading.addAll set files).log.errorCount
      = reading.log.errorCount) :
    Gathers set strict (before ++ files) (reading.addAll set files) := by
  induction files generalizing reading before with
  | nil =>
    rw [List.append_nil]
    exact h
  | cons file rest ih =>
    have hlow := (reading.extends_add set file.1 file.2).errors_le
    have hhigh := (@extends_addAll set (reading.add set file.1 file.2).1 rest).errors_le
    rw [addAll_cons] at hclean ⊢
    have hread : (reading.add set file.1 file.2).1.log.errorCount
        = reading.log.errorCount := by omega
    have hrest := ih (h.add hread) (hclean.trans hread.symm)
    rwa [List.append_assoc] at hrest

/-- Files can be read one after the other if each can by itself and no
two types have one name. -/
theorem Gathers.clean_addAll (h : Gathers set strict before reading)
    (hown : ∀ file ∈ files, (Parsed.ofFile set strict file.1 file.2).log.errorCount = 0)
    (hnodup : (((before ++ files).flatMap fun file =>
      (ownProgram set strict file).entries).map (·.full)).Nodup) :
    (reading.addAll set files).log.errorCount = reading.log.errorCount := by
  induction files generalizing reading before with
  | nil => rfl
  | cons file rest ih =>
    rw [List.forall_mem_cons] at hown
    have hread : (reading.add set file.1 file.2).1.log.errorCount = reading.log.errorCount := by
      have hfile := hown.1
      rw [← h.strict_eq] at hfile
      refine Program.parse_onto h.sound.linkable h.sound.listed hfile fun _ hentry hold => ?_
      rw [h.strict_eq] at hentry
      rw [(h.entries.map _).mem_iff] at hold
      rw [List.flatMap_append, List.flatMap_cons, List.map_append, List.map_append] at hnodup
      exact (List.nodup_append.1 hnodup).2.2 _ hold _
        (List.mem_append_left _ (List.mem_map_of_mem hentry)) rfl
    refine (ih (h.add hread) hown.2 ?_).trans hread
    rw [List.append_assoc]
    exact hnodup

theorem Gathers.alike {others : List (String × String)} (h : Gathers set strict files reading)
    (hother : Gathers set strict others other) (hperm : files.Perm others) :
    reading.program.Alike other.program where
  spread := h.spread.trans ((hperm.flatMap_right _).trans hother.spread.symm)
  externals := by
    refine (List.perm_ext_iff_of_nodup h.sound.listed.externals_nodup
      hother.sound.listed.externals_nodup).2 fun _ => ?_
    rw [h.externals, hother.externals]
    exact exists_congr fun _ => and_congr_left fun _ => hperm.mem_iff
  aliases := by
    rw [h.aliases, hother.aliases]
    exact hperm.flatMap_right _

/-- Files that can be read in one order can be read in any, and the
programs differ in order only. -/
theorem gathers_of_perm {log : Log} {others : List (String × String)}
    (hclean : (Reading.addAll set { log } files).log.errorCount
      = log.errorCount) (hperm : files.Perm others) :
    (Reading.addAll set { log } others).log.errorCount = log.errorCount
      ∧ (Reading.addAll set { log } files).Sound set
      ∧ (Reading.addAll set { log } others).Sound set
      ∧ (Reading.addAll set { log } files).program.Alike
        (Reading.addAll set { log } others).program := by
  have hempty := gathers_empty set log
  have hfirst := hempty.addAll hclean
  have hnodup := ((hfirst.entries.map (·.full)).nodup_iff).1 hfirst.sound.linkable.nodup
  have hown : ∀ file ∈ others,
      (Parsed.ofFile set log.warningsAsErrors file.1 file.2).log.errorCount = 0 :=
    fun file hfile => hfirst.clean file (hperm.mem_iff.2 hfile)
  have hmoved := hempty.clean_addAll hown ((((hperm.flatMap_right _).map _).nodup_iff).1 hnodup)
  have hsecond := hempty.addAll hmoved
  exact ⟨hmoved, hfirst.sound, hsecond.sound, hfirst.alike hsecond hperm⟩

/-- What is written in one order can be written in another. -/
theorem exists_write_of_alike {style : ContainerStyle} {built : Compiled}
    (h : reading.write style = .ok built) (halike : reading.program.Alike other.program)
    (hlisted : reading.program.Listed) (hother : other.program.Listed) :
    ∃ moved, other.write style = .ok moved := by
  obtain ⟨_, himage, h⟩ := bind_ok_iff.1 h
  obtain ⟨_, hnames, -⟩ := bind_ok_iff.1 h
  obtain ⟨moved, hmoved⟩ := Program.exists_toContainer_of_alike himage halike hlisted hother
  have hencoded : ∃ bytes, moved.debug.mapM DebugNames.encode = .ok bytes := by
    rw [Container.debug_of_toContainer himage] at hnames
    rw [Container.debug_of_toContainer hmoved]
    split at hnames
    · rw [Option.mapM_some] at hnames
      obtain ⟨bytes, hbytes, -⟩ := bind_ok_iff.1 hnames
      obtain ⟨others, hothers⟩ := Program.exists_encode_of_alike hbytes halike hlisted hother
      rw [if_pos ‹_›, Option.mapM_some]
      exact ⟨_, bind_ok_iff.2 ⟨others, hothers, rfl⟩⟩
    · rw [if_neg ‹_›]
      exact ⟨none, rfl⟩
  obtain ⟨bytes, hbytes⟩ := hencoded
  exact ⟨_, bind_ok_iff.2 ⟨moved, hmoved, bind_ok_iff.2 ⟨bytes, hbytes, rfl⟩⟩⟩

theorem of_write {style : ContainerStyle} {built : Compiled} (h : reading.write style = .ok built) :
    built.program = reading.program ∧ built.files = reading.files := by
  obtain ⟨_, _, h⟩ := bind_ok_iff.1 h
  obtain ⟨_, _, h⟩ := bind_ok_iff.1 h
  cases h
  exact ⟨rfl, rfl⟩

end Reading

-- ==== roots

namespace SourceSet

variable {sources : SourceSet} {set : InstructionSet}
  {options : BuildOptions} {roots others : List String}

/-- Roots in another order make a build read the same files, in another
order. -/
theorem readAll_of_perm {log : Log} (hperm : roots.Perm others)
    (hclean : (sources.readAll set roots log).log.errorCount
      = log.errorCount) :
    ∃ order order' : List sources.Place, order.Perm order'
      ∧ sources.readAll set roots log
        = Reading.addAll set { log } (order.map sources.file)
      ∧ sources.readAll set others log
        = Reading.addAll set { log } (order'.map sources.file) := by
  obtain ⟨hroots, order, hwalk, hall, hread⟩ := exists_walk_of_readAll hclean
  obtain ⟨order', hwalk'⟩ : ∃ order', Worklist.Walks (sources.leads set log.warningsAsErrors)
      (Worklist.offerAll {} (others.filterMap sources.place?)) order' :=
    ⟨_, Worklist.walks_visits _ (Nat.le_refl _)⟩
  have horder : order.Perm order' := hwalk.perm_of_offers hwalk'
    fun place => (hperm.filterMap sources.place?).mem_iff
  rw [hread] at hclean
  have hmoved := (Reading.gathers_of_perm hclean (horder.map sources.file)).1
  refine ⟨order, order', horder, hread, ?_⟩
  exact readAll_of_walk (fun root hroot => hroots root (hperm.mem_iff.2 hroot)) hwalk'
    (fun place hplace => hall place (horder.mem_iff.2 hplace)) hmoved

/-- What is built from some roots is built from them in any order, up to
the order of files and declarations. -/
theorem exists_compile_of_perm {built : Compiled} (hperm : roots.Perm others)
    (h : sources.compile set options roots = .ok built) :
    ∃ moved, sources.compile set options others = .ok moved
      ∧ built.files.Perm moved.files
      ∧ built.program.Reorders moved.program := by
  obtain ⟨hlinked, hwrite⟩ := compile_ok_iff.1 h
  have hclean := readAll_clean_of_link rfl hlinked
  obtain ⟨_, _, horder, hread, hread'⟩ := readAll_of_perm hperm hclean
  rw [hread] at hlinked hwrite hclean
  obtain ⟨hmoved, hsound, hsound', halike⟩ :=
    Reading.gathers_of_perm hclean (horder.map sources.file)
  have herrors := hlinked.trans hclean.symm
  obtain ⟨_, himage, -⟩ := bind_ok_iff.1 hwrite
  obtain ⟨hlog, hlink⟩ := hsound.link_alike hsound' halike herrors fun entry hentry =>
      (Container.sizes_of_toContainer himage entry hentry).2
  have hlisted := (hsound.link herrors).listed
  have hlisted' := (hsound'.link (by rw [hlog])).listed
  -- the order decides nothing about sizes, so the other program is written too
  obtain ⟨moved, hwrite'⟩ := Reading.exists_write_of_alike hwrite hlink hlisted hlisted'
  obtain ⟨hprogram, hfiles⟩ := Reading.of_write hwrite
  obtain ⟨hprogram', hfiles'⟩ := Reading.of_write hwrite'
  refine ⟨moved, compile_ok_iff.2 ?_, ?_, ?_⟩
  · rw [hread', hlog]
    exact ⟨hmoved, hwrite'⟩
  · rw [hfiles, hfiles']
    show (Reading.addAll set _ _).files.Perm (Reading.addAll set _ _).files
    rw [Reading.files_addAll, Reading.files_addAll]
    exact ((horder.map _).map _).append_left _
  · rw [hprogram, hprogram']
    exact hlink.reorders hlisted hlisted'

/-- The order of roots does not matter. Roots can be built in one order
exactly if they can in another; the builds read the same files, and their
programs have the same externals and aliases and the same namespaces with
the same types, in whatever order. -/
theorem root_order_irrelevant (sources : SourceSet) (set : InstructionSet)
    (options : BuildOptions) {roots others : List String} (hperm : roots.Perm others) :
    ((∃ built, sources.compile set options roots = .ok built)
      ↔ ∃ moved, sources.compile set options others = .ok moved)
    ∧ ∀ built moved, sources.compile set options roots = .ok built →
      sources.compile set options others = .ok moved → built.files.Perm moved.files
        ∧ built.program.Reorders moved.program := by
  refine ⟨⟨?_, ?_⟩, fun built moved hbuilt hmoved => ?_⟩
  · rintro ⟨built, hbuilt⟩
    obtain ⟨moved, hmoved, -⟩ := exists_compile_of_perm hperm hbuilt
    exact ⟨moved, hmoved⟩
  · rintro ⟨moved, hmoved⟩
    obtain ⟨built, hbuilt, -⟩ := exists_compile_of_perm hperm.symm hmoved
    exact ⟨built, hbuilt⟩
  · obtain ⟨other, hother, hsame⟩ := exists_compile_of_perm hperm hbuilt
    rw [hmoved, Except.ok.injEq] at hother
    rw [hother]
    exact hsame

end SourceSet

-- ==== sample

instance (text : String) : Decidable (Text.Storable text) :=
  inferInstanceAs (Decidable (text.utf8ByteSize < UInt32.size))

instance (method : Method) : Decidable method.Sized :=
  decidable_of_iff (method.params.length < UInt16.size
      ∧ method.body.locals.length < UInt16.size
      ∧ method.body.labels.length < UInt16.size
      ∧ method.body.instructions.length < UInt32.size
      ∧ (method.body.instructions.map Instruction.width).sum < UInt32.size)
    ⟨fun ⟨hparams, hlocals, hlabels, hcode, hwidth⟩ =>
        ⟨hparams, hlocals, hlabels, hcode, hwidth⟩,
      fun h => ⟨h.params_lt, h.locals_lt, h.labels_lt, h.instructions_lt, h.code_lt⟩⟩

instance (type : TypeDecl) : Decidable type.Sized :=
  decidable_of_iff (type.memberCount < UInt32.size
      ∧ ∀ method ∈ type.methods, method.Sized)
    ⟨fun ⟨hmembers, hmethods⟩ => ⟨hmembers, hmethods⟩, fun h => ⟨h.members_lt, h.methods⟩⟩

instance (program : Program) : Decidable program.Sized :=
  decidable_of_iff (program.segmentCount < UInt32.size
      ∧ (∀ path ∈ program.externals, Text.Storable path)
      ∧ (∀ entry ∈ program.aliases, Text.Storable entry.name
        ∧ ∀ text ∈ entry.target.reference.texts, Text.Storable text)
      ∧ (∀ space ∈ program.namespaces, Text.Storable space.name)
      ∧ (∀ space ∈ program.namespaces, space.types.length < UInt32.size)
      ∧ (∀ entry ∈ program.types, entry.2.Sized)
      ∧ ∀ text ∈ program.texts, Text.Storable text)
    ⟨fun ⟨hsegments, hexternals, haliases, hnames, hspaces, htypes,
          htexts⟩ =>
        ⟨hsegments, hexternals, haliases, hnames, hspaces, htypes, htexts⟩,
      fun h => ⟨h.segments_lt, h.externals, h.aliases, h.names, h.spaces_lt, h.types, h.texts⟩⟩

theorem SourceSet.writable_of_linked {sources : SourceSet} {roots : List String}
    (h : (sources.readAll set roots {}).link.log.errorCount = 0) :
    (sources.readAll set roots {}).link.program.Writable set := by
  have hsound := (sources.extends_readAll set roots {}).sound (Reading.sound_empty set _)
  have hclean := readAll_clean_of_link rfl h
  exact hsound.writable_link (h.trans hclean.symm)

/-- A program that is linked without errors is built if it is small. -/
theorem SourceSet.exists_compile_of_sized {sources : SourceSet} {roots : List String}
    (hlinked : (sources.readAll set roots {}).link.log.errorCount = 0)
    (hsized : (sources.readAll set roots {}).link.program.Sized)
    (htexts : (sources.readAll set roots {}).link.program.texts.length
      < UInt32.size) :
    ∃ built, sources.compile set { omitDebugNames := true } roots = .ok built := by
  have hwritable := writable_of_linked hlinked
  have hle := size_heap_of_sized hwritable hsized
  obtain ⟨image, himage⟩ := toContainer_of_sized hwritable hsized (Nat.lt_of_le_of_lt hle htexts)
  have hdebug : image.debug = none := Container.debug_of_toContainer himage
  have hwrite : ∃ built, (sources.readAll set roots {}).link.write ⟨set, false⟩ = .ok built := by
    refine ⟨_, bind_ok_iff.2 ⟨image, himage, bind_ok_iff.2 ⟨none, ?_, rfl⟩⟩⟩
    rw [hdebug]
    rfl
  obtain ⟨built, hbuilt⟩ := hwrite
  exact ⟨built, compile_ok_iff.2 ⟨hlinked, hbuilt⟩⟩

namespace Sample

/-- Two files with one namespace. Each has a type that the other one
names, an external namespace or an alias, and one of them a loop. -/
def halves : SourceTexts :=
  .ofFiles [("a.casm", ".extern Host\n.namespace N \x7b\n.type A \x7b\n"
      ++ ".field b: B\n.method m() \x7b\nagain:\njmp again\n\x7d\n\x7d\n"
      ++ "\x7d\n"),
    ("b.casm", ".alias Word = i32\n.namespace N \x7b\n.type B \x7b\n"
      ++ ".field a: A\n.field w: Word\n\x7d\n\x7d\n")]

theorem linked_halves :
    ((SourceSet.ofList halves.files).readAll .standard
        ["a.casm", "b.casm"] {}).link.log.errorCount = 0
      ∧ ((SourceSet.ofList halves.files).readAll .standard
        ["a.casm", "b.casm"] {}).link.program.Sized
      ∧ ((SourceSet.ofList halves.files).readAll .standard
        ["a.casm", "b.casm"] {}).link.program.texts.length
          < UInt32.size := by
  rw [SourceSet.readAll_eq_rounds]
  decide +kernel

/-- Both orders of the two files are built, to the same up to order. -/
theorem root_order_irrelevant_halves :
    ["a.casm", "b.casm"].Perm ["b.casm", "a.casm"]
      ∧ ∃ built moved, halves.sources.compile .standard { omitDebugNames := true }
            ["a.casm", "b.casm"] = .ok built
          ∧ halves.sources.compile .standard { omitDebugNames := true }
            ["b.casm", "a.casm"] = .ok moved
          ∧ built.files.Perm moved.files
          ∧ built.program.Reorders moved.program := by
  have hperm : ["a.casm", "b.casm"].Perm ["b.casm", "a.casm"] := .swap "b.casm" "a.casm" []
  have hbuilds := SourceSet.root_order_irrelevant halves.sources .standard
    { omitDebugNames := true } hperm
  obtain ⟨hlinked, hsized, htexts⟩ := linked_halves
  rw [← halves.sources_eq_ofList] at hlinked hsized htexts
  obtain ⟨built, hbuilt⟩ := SourceSet.exists_compile_of_sized hlinked hsized htexts
  obtain ⟨moved, hmoved⟩ := hbuilds.1.1 ⟨built, hbuilt⟩
  exact ⟨hperm, built, moved, hbuilt, hmoved, hbuilds.2 built moved hbuilt hmoved⟩

end Sample

end StackAsm
