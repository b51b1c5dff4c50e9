/-
Builds, read back. What a build writes is in the shape a reader gives it:
every branch is aimed, and full names and label indices are not repeated.
So reading gives the program again, up to its lines, exactly if the files
keep to the limits of their readers (`SourceSet.reload_of_compile`). A
build does not look at those limits.
-/
import StackAsm.Proofs.Build.Towers
import StackAsm.Proofs.Container.Stripping

namespace StackAsm

open Container Decode

-- ==== shapes

namespace Linkable

variable {program : Program} {fixes : List BranchFixes}

theorem full_ne_empty (h : Linkable program.entries fixes) :
    ∀ entry ∈ program.entries, entry.full ≠ "" := by
  intro entry hentry
  have hpart := (h.sound entry hentry).part
  rw [Program.entries_eq, List.mem_map] at hentry
  obtain ⟨listed, hlisted, rfl⟩ := hentry
  obtain ⟨_, _, hwalk⟩ := List.mem_flatMap.1 hlisted
  obtain ⟨_, _, hwalk⟩ := TypeDecl.mem_walkAll.1 hwalk
  obtain ⟨around, hfull⟩ := TypeDecl.exists_around_of_mem_walk hwalk
  show listed.1 ≠ ""
  rw [hfull]
  exact Text.join_ne_empty around hpart.1

/-- No full name of a method is repeated. -/
theorem nodup_methods (h : Linkable program.entries fixes) : (program.methods.map fun entry =>
      Text.join entry.1 entry.2.name).Nodup := by
  have hnames : ∀ entry : TypeEntry, (entry.methods.map fun method => (entry.full, method)).map
          (fun entry => Text.join entry.1 entry.2.name)
        = (entry.methods.map (·.name)).map (Text.join entry.full) := by
    intro entry
    rw [List.map_map, List.map_map]
    rfl
  have hparts : ∀ entry ∈ program.entries,
      ∀ name ∈ entry.methods.map (·.name), '.' ∉ name.toList := by
    intro entry hentry name hname
    obtain ⟨method, hmethod, rfl⟩ := List.mem_map.1 hname
    exact ((h.sound entry hentry).parts method hmethod).2
  rw [Program.methods_eq, List.map_flatMap, List.nodup_flatMap]
  simp only [hnames]
  refine ⟨?_, ?_⟩
  · intro entry hentry
    have hfull := h.full_ne_empty entry hentry
    refine (h.sound entry hentry).names_nodup.map_on ?_
    intro name hname name' hname' heq
    exact (Text.join_inj hfull hfull (hparts entry hentry name hname)
      (hparts entry hentry name' hname') heq).2
  · -- the last dot of a full name parts the method from its type
    have hfulls := h.nodup
    rw [List.Nodup, List.pairwise_map] at hfulls
    refine hfulls.imp_of_mem ?_
    intro first second hfirst hsecond hne
    refine List.disjoint_left.2 ?_
    intro full hfull hfull'
    obtain ⟨name, hname, rfl⟩ := List.mem_map.1 hfull
    obtain ⟨name', hname', heq⟩ := List.mem_map.1 hfull'
    exact hne (Text.join_inj (h.full_ne_empty second hsecond)
      (h.full_ne_empty first hfirst) (hparts second hsecond name' hname')
      (hparts first hfirst name hname) heq).1.symm

/-- A program that is in order, with no fixes left, is regular. -/
theorem regular (h : Linkable program.entries []) (hlisted : program.Listed)
    (hsmall : ∀ entry ∈ program.methods, entry.2.body.instructions.length ≤ UInt32.size) :
    program.Regular where
  externals_nodup := hlisted.externals_nodup
  names_nodup := by
    have hnames := hlisted.names_nodup
    rw [Program.outline, List.map_map] at hnames
    exact hnames
  types_ne_nil space hspace := by
    have hsize := hlisted.sizes_ne_zero _ (List.mem_map.2 ⟨space, hspace, rfl⟩)
    exact fun hnil => hsize (congrArg List.length hnil)
  aimed entry hentry := (Program.settled_of_linkable h entry hentry).aimed (hsmall entry hentry)

theorem nodup_labels (h : Linkable program.entries fixes) :
    ∀ entry ∈ program.methods, (entry.2.body.labels.map (·.index)).Nodup := by
  intro entry hentry
  obtain ⟨type, htype, -, hmethod⟩ := Program.exists_entry_of_mem_methods hentry
  exact (h.sound type htype).labels_nodup entry.2 hmethod

end Linkable

-- ==== writing

/-- What a build writes keeps to the limits of its readers. -/
structure Compiled.Loadable (built : Compiled) (style : ContainerStyle) : Prop where
  container : built.program.Loadable style
  debugNames : style.stripNames = true → built.program.debugNames.heap.size ≤ countLimit

namespace Reading

variable {reading : Reading} {style : ContainerStyle} {built : Compiled}

/-- What was written, and how it is read back. -/
theorem write_ok (h : reading.write style = .ok built) :
    ∃ image, built.program.toContainer style = .ok image
      ∧ built.program = reading.program ∧ built.container = image.bytes
      ∧ image.debug.mapM DebugNames.encode = .ok built.debugNames := by
  obtain ⟨image, himage, h⟩ := bind_ok_iff.1 h
  obtain ⟨_, hdebug, h⟩ := bind_ok_iff.1 h
  cases h
  exact ⟨image, himage, rfl, rfl, hdebug⟩

end Reading

-- ==== reading

section Read

variable {program : Program} {style : ContainerStyle} {image : ContainerImage}
  (himage : program.toContainer style = .ok image)
  (hlinkable : Linkable program.entries []) (hlisted : program.Listed)

include himage hlinkable hlisted

theorem regular_of_toContainer : program.Regular := hlinkable.regular hlisted fun entry hentry =>
    Nat.le_of_lt (sizes_of_toContainer himage entry hentry).2

/-- With the names that were left out, if any, the program comes back. -/
theorem ofContainer_of_linkable (hloadable : program.Loadable style) :
    Program.ofContainer style.set image.debug image.bytes = .ok program.forgetLines := by
  have hread := ofContainer_of_loadable himage
    (regular_of_toContainer himage hlinkable hlisted) hloadable image.debug
  rw [ContainerStyle.programRead_eq_mapMembers fun entry hentry => ?_] at hread
  · exact hread
  · rw [debug_of_toContainer himage, DebugNames.get?_methodTable]
    cases hstrip : style.stripNames with
    | false => exact ContainerStyle.methodRead_of_kept hstrip _ entry.2
    | true =>
      rw [if_pos rfl, Option.getD_some, Program.method?_debugNames hlinkable.nodup_methods hentry,
        Option.map_some]
      exact Method.methodRead_debugNames (sizes_of_toContainer himage entry hentry).1
        (hlinkable.nodup_labels entry hentry)

omit hlinkable hlisted

/-- The debug names that were written are read back if they keep to their
limit, and refused if not. -/
theorem decode_of_toContainer {written : Option (List UInt8)}
    (hwritten : image.debug.mapM DebugNames.encode = .ok written)
    (hloadable : program.Loadable style) :
    ((style.stripNames = true → program.debugNames.heap.size ≤ countLimit) →
      written.mapM DebugNames.decode = .ok image.debug)
    ∧ (¬ (style.stripNames = true → program.debugNames.heap.size ≤ countLimit) →
      ∃ fault, written.mapM DebugNames.decode = .error fault) := by
  rw [debug_of_toContainer himage] at hwritten ⊢
  cases hstrip : style.stripNames with
  | false =>
    rw [hstrip] at hwritten
    cases hwritten
    exact ⟨fun _ => rfl, fun hlimit => absurd nofun hlimit⟩
  | true =>
    rw [hstrip, if_pos rfl, Option.mapM_some] at hwritten
    obtain ⟨_, hbytes, hwritten⟩ := bind_ok_iff.1 hwritten
    cases hwritten
    refine ⟨fun hlimit => ?_, fun hlimit => ?_⟩
    · rw [Option.mapM_some, DebugNames.decode_of_loadable hbytes
        (Program.loadable_debugNames hloadable (hlimit rfl))]
      rfl
    · have hlarge : countLimit < program.debugNames.heap.size :=
        Nat.lt_of_not_le fun hle => hlimit fun _ => hle
      obtain ⟨fault, hfault⟩ := DebugNames.decode_of_large_heap hbytes hlarge
      rw [Option.mapM_some, hfault]
      exact ⟨fault, rfl⟩

end Read

section Reload

variable {sources : SourceSet} {set : InstructionSet}
  {options : BuildOptions} {roots : List String} {built : Compiled}
  (h : sources.compile set options roots = .ok built)

include h

theorem Compiled.reload_of_loadable (hloadable : built.Loadable ⟨set, !options.omitDebugNames⟩) :
    built.reload set = .ok built.program.forgetLines := by
  obtain ⟨_, hsound, hwrite⟩ := SourceSet.sound_of_compile h
  obtain ⟨_, himage, hprogram, hbytes, hdebug⟩ := Reading.write_ok hwrite
  rw [← hprogram] at hsound
  obtain ⟨hnames, -⟩ := decode_of_toContainer himage hdebug hloadable.container
  have hread := ofContainer_of_linkable himage hsound.linkable hsound.listed hloadable.container
  unfold reload
  rw [hbytes, hnames hloadable.debugNames]
  exact hread

theorem Compiled.reload_of_not_loadable
    (hloadable : ¬ built.Loadable ⟨set, !options.omitDebugNames⟩) :
    ∃ fault, built.reload set = .error fault := by
  obtain ⟨_, hsound, hwrite⟩ := SourceSet.sound_of_compile h
  obtain ⟨_, himage, hprogram, hbytes, hdebug⟩ := Reading.write_ok hwrite
  rw [← hprogram] at hsound
  unfold reload
  rw [hbytes]
  by_cases hcontainer : built.program.Loadable ⟨set, !options.omitDebugNames⟩
  · obtain ⟨-, hnames⟩ := decode_of_toContainer himage hdebug hcontainer
    obtain ⟨fault, hfault⟩ := hnames fun hlimit =>
      hloadable ⟨hcontainer, hlimit⟩
    rw [hfault]
    exact ⟨fault, rfl⟩
  · cases hnames : built.debugNames.mapM DebugNames.decode with
    | error fault => exact ⟨fault, rfl⟩
    | ok names =>
      have hrefused := ofContainer_of_not_loadable himage
        (regular_of_toContainer himage hsound.linkable hsound.listed) hcontainer names
      exact hrefused

end Reload

/-- What a build writes can be read back exactly if it keeps to the limits
of its readers, and then the program comes back without its lines. -/
theorem SourceSet.reload_of_compile {sources : SourceSet}
    {set : InstructionSet} {options : BuildOptions} {roots : List String} {built : Compiled}
    (h : sources.compile set options roots = .ok built) :
    (built.Loadable ⟨set, !options.omitDebugNames⟩ →
      built.reload set = .ok built.program.forgetLines)
    ∧ (¬ built.Loadable ⟨set, !options.omitDebugNames⟩ →
      ∃ fault, built.reload set = .error fault) :=
  ⟨Compiled.reload_of_loadable h, Compiled.reload_of_not_loadable h⟩

namespace Tower

/-- A tower of sixty-four types is built and read back. -/
theorem reload_sources :
    ∃ built, (sources 64).compile .standard { omitDebugNames := true } ["main.casm"] = .ok built
      ∧ built.Loadable ⟨.standard, false⟩
      ∧ built.reload .standard = .ok (program 64).forgetLines := by
  obtain ⟨built, hbuilt, hprogram, hheap⟩ :=
    @compile_sources 63 (by decide +kernel) (by decide +kernel)
  have hloadable : built.Loadable ⟨.standard, false⟩ := by
    refine ⟨?_, nofun⟩
    rw [hprogram]
    exact ⟨hheap, by decide, by decide +kernel, by decide +kernel, by decide +kernel⟩
  have hreload := (SourceSet.reload_of_compile hbuilt).1 hloadable
  rw [hprogram] at hreload
  exact ⟨built, hbuilt, hloadable, hreload⟩

/-- A tower of sixty-five types is built, and cannot be read back. -/
theorem reload_sources_refused :
    ∃ built, (sources 65).compile .standard { omitDebugNames := true } ["main.casm"] = .ok built
      ∧ ¬ built.Loadable ⟨.standard, false⟩
      ∧ ∃ fault, built.reload .standard = .error fault := by
  obtain ⟨built, hbuilt, hprogram, -⟩ := @compile_sources 64 (by decide +kernel) (by decide +kernel)
  have hloadable : ¬ built.Loadable ⟨.standard, false⟩ := by
    intro hloadable
    have hheights := hloadable.container.height_le
    rw [hprogram] at hheights
    exact absurd hheights (by decide +kernel)
  exact ⟨built, hbuilt, hloadable, Compiled.reload_of_not_loadable hbuilt hloadable⟩

end Tower

end StackAsm
