/-
What a build writes. If a build is linked without an error, then every
reference has found its symbol, wherever in the program it stands; every
instruction is one of the set, since it was read by one of its forms; and
every label has its place in the code of its method. That is all that
writing asks for: a build without errors can fail only because the
program is too large for the format (`SourceSet.written_or_too_large`).
-/
import StackAsm.Proofs.Build.Reading
import StackAsm.Proofs.Container.Sizes
import StackAsm.Proofs.DebugNames.Binary

namespace StackAsm

-- ==== references

theorem Declarations.isError_complaints (table : Declarations)
    (reported : Table MissingKey Unit) (references : List Reference) :
    ∀ d ∈ table.complaints reported references, d.isError = true := by
  induction references generalizing reported with
  | nil => exact List.forall_mem_nil _
  | cons first rest ih =>
    cases first with
    | resolved => exact ih reported
    | pending =>
      unfold complaints
      split
      · exact ih reported
      · simp only
        split
        · exact ih reported
        · rw [List.forall_mem_cons]
          exact ⟨rfl, ih _⟩
      · rw [List.forall_mem_cons]
        exact ⟨rfl, ih _⟩

/-- Where nothing is complained about, lookup finds every reference. -/
theorem Declarations.found_of_complaints {table : Declarations}
    {reported : Table MissingKey Unit} {references : List Reference}
    (hreported : ∀ key, reported.get? key = none) (h : table.complaints reported references = []) :
    ∀ reference, .pending reference ∈ references →
      ∃ symbol, table.resolve reference = .found symbol := by
  induction references with
  | nil => exact fun _ => nofun
  | cons first rest ih =>
    cases first with
    | resolved =>
      intro reference hmem
      rcases List.mem_cons.1 hmem with hmem | hmem
      · cases hmem
      · exact ih h reference hmem
    | pending =>
      unfold complaints at h
      split at h
      · rename_i symbol hfound
        intro reference hmem
        rcases List.mem_cons.1 hmem with hmem | hmem
        · cases hmem
          exact ⟨symbol, hfound⟩
        · exact ih h reference hmem
      · simp only [hreported] at h
        cases h
      · cases h

/-- Where nothing is complained about, every reference is settled. -/
theorem Declarations.settled_of_complaints {table : Declarations} {references : List Reference}
    (h : table.complaints ⟨{}⟩ (references.map table.settle) = []) :
    ∀ reference ∈ references, (table.settle reference).isPending = false := by
  intro reference hmem
  have hempty : ∀ key : MissingKey, (⟨{}⟩ : Table MissingKey Unit).get? key = none := by
    simp [Table.get?]
  cases hsettled : table.settle reference with
  | resolved => rfl
  | pending wanted =>
    have hwanted : .pending wanted ∈ references.map table.settle := by
      rw [← hsettled]
      exact List.mem_map_of_mem hmem
    obtain ⟨symbol, hfound⟩ := found_of_complaints hempty h wanted hwanted
    -- lookup would have settled it
    exfalso
    cases reference with
    | resolved => cases hsettled
    | pending =>
      simp only [settle] at hsettled
      split at hsettled
      · cases hsettled
      · rename_i hmissing
        cases hsettled
        exact hmissing symbol hfound

-- ==== members

/-- Whether the references of members, as `f` replaces them, are
resolved. -/
structure ResolvedMembers (f : Reference → Reference) (fields : List Field)
    (methods : List Method) : Prop where
  fields : ∀ field ∈ fields, (f field.type.reference).isPending = false
  methods : ∀ method ∈ methods, ∀ reference ∈ method.references, (f reference).isPending = false

theorem Operand.reference?_mapReference (f : Reference → Reference) (operand : Operand) :
    (operand.mapReference f).reference? = operand.reference?.map f := by
  cases operand <;> rfl

theorem Method.references_mapReferences (f : Reference → Reference) (method : Method) :
    (method.mapReferences f).references = method.references.map f := by
  have hcode : ∀ instruction : Instruction, (instruction.mapReferences f).references
        = instruction.references.map f := by
    intro instruction
    unfold Instruction.references Instruction.mapReferences
    simp only [List.filterMap_map, List.map_filterMap, Function.comp_def,
      Operand.reference?_mapReference]
  unfold Method.references Method.mapReferences
  simp only [List.map_append, List.map_cons, List.map_map, List.map_flatMap,
    List.flatMap_map, hcode]
  rfl

/-- Targets of branches hold no references. -/
theorem Method.references_aims {method aimed : Method}
    (h : method.Aims aimed) : aimed.references = method.references := by
  obtain ⟨code, hcode, rfl⟩ := h
  have hviews : ∀ instructions : List Instruction, (instructions.map Instruction.unaimed).flatMap
          Instruction.references
        = instructions.flatMap Instruction.references := by
    intro instructions
    rw [List.flatMap_map]
    exact List.flatMap_congr fun instruction _ =>
      instruction.references_unaimed
  unfold Method.references
  rw [← hviews code, hcode, hviews]

theorem ResolvedMembers.mapReferences {f : Reference → Reference}
    {fields : List Field} {methods : List Method} (h : ResolvedMembers f fields methods) :
    ResolvedMembers id (fields.map (Field.mapReference f))
      (methods.map (Method.mapReferences f)) := by
  constructor
  · intro field hfield
    obtain ⟨old, hold, rfl⟩ := List.mem_map.1 hfield
    exact h.fields old hold
  · intro method hmethod reference href
    obtain ⟨old, hold, rfl⟩ := List.mem_map.1 hmethod
    rw [Method.references_mapReferences] at href
    obtain ⟨wanted, hwanted, rfl⟩ := List.mem_map.1 href
    exact h.methods old hold wanted hwanted

theorem ResolvedMembers.aims {f : Reference → Reference}
    {fields : List Field} {methods others : List Method} (h : ResolvedMembers f fields methods)
    (haims : Method.AimsEach methods others) :
    ResolvedMembers f fields others := by
  refine ⟨h.fields, fun other hother => ?_⟩
  obtain ⟨method, hmethod, haims⟩ := haims other hother
  rw [Method.references_aims haims]
  exact h.methods method hmethod

-- ==== linking

namespace Program

/-- Where every reference of a program is resolved, so are those of the
members of its types. -/
theorem all_resolvedMembers {program : Program} {f : Reference → Reference}
    (h : ∀ reference ∈ program.references, (f reference).isPending = false) :
    program.All (ResolvedMembers f) := by
  refine .of_forall_types fun entry hentry => ?_
  have hown : ∀ reference ∈ entry.2.ownReferences, (f reference).isPending = false :=
    fun reference href => h reference
      (List.mem_append_right _ (List.mem_flatMap.2 ⟨entry, hentry, href⟩))
  obtain ⟨hfields, hmethods⟩ := List.forall_mem_append.1 hown
  refine ⟨fun _ hfield => hfields _ (List.mem_map_of_mem hfield), ?_⟩
  intro method hmethod reference href
  exact hmethods reference (List.mem_flatMap.2 ⟨method, hmethod, href⟩)

end Program

namespace Reading

variable {set : InstructionSet} {reading : Reading}

theorem Sound.writable_link (h : reading.Sound set)
    (herrors : reading.link.log.errorCount = reading.log.errorCount) :
    reading.link.program.Writable set := by
  let table := reading.program.declarations
  let resolved := reading.program.mapReferences table.settle
  -- fixes change nothing but targets, so references stay as they were resolved
  have haim : reading.link.program.aim = resolved.aim := Program.aim_fixBranches
      (Program.linkable_mapReferences table.settle h.linkable)
      (fun _ hfix => hfix) (reading.program.resolve reading.log).2.2
  have hsettled : ∀ reference ∈ reading.program.references,
      (table.settle reference).isPending = false := Declarations.settled_of_complaints
      (Log.eq_nil_of_reportAll (table.isError_complaints _ _) (errorCount_resolve herrors))
  have hresolved : reading.link.program.All (ResolvedMembers id) :=
    ((Program.all_resolvedMembers hsettled).mapReferences table.settle
      fun _ _ hown => hown.mapReferences).of_aim ResolvedMembers.aims haim
  have hlinked := h.link herrors
  refine ⟨?_, .of_forall_types fun entry hentry => ?_⟩
  · have haliases : reading.link.program.aliases = resolved.aliases := congrArg (·.aliases) haim
    rw [haliases]
    intro entry hentry
    obtain ⟨_, hold, rfl⟩ := List.mem_map.1 hentry
    exact hsettled _ (List.mem_append_left _ (List.mem_map_of_mem hold))
  · have hreferences := hresolved.of_types hentry
    have htidy := hlinked.tidy.of_types hentry
    refine ⟨hreferences.fields, fun method hmethod => ?_⟩
    refine ⟨hreferences.methods method hmethod, ?_, ?_⟩
    · intro instruction hin
      exact ((htidy.methods method hmethod).code instruction hin).form
    · intro label hlabel
      have hsettled := Program.settled_of_linkable hlinked.linkable
        (entry.1, method) (List.mem_flatMap.2 ⟨entry, hentry, List.mem_map_of_mem hmethod⟩)
      obtain ⟨place, hplace⟩ := Option.isSome_iff_exists.1 (hsettled.placed label hlabel)
      exact ⟨place, hplace, (htidy.methods method hmethod).offsets label hlabel place hplace⟩

end Reading

-- ==== builds

theorem FailsOnly.cases {α : Type} {step : Except FormatFault α}
    (h : FailsOnly FormatFault.IsSize step) :
    (∃ value, step = .ok value) ∨ ∃ context, step = .error (.countOutOfRange context) := by
  cases step with
  | ok value => exact .inl ⟨value, rfl⟩
  | error fault =>
    obtain ⟨context, rfl⟩ := h fault rfl
    exact .inr ⟨context, rfl⟩

theorem Reading.failsOnly_write {reading : Reading}
    {style : ContainerStyle} (h : reading.program.Writable style.set) :
    FailsOnly FormatFault.IsSize (reading.write style) := by
  refine (Program.failsOnly_toContainer_of_writable h).bind fun image => ?_
  refine FailsOnly.bind ?_ fun _ => .ok _
  cases image.debug with
  | none => exact .ok _
  | some names => exact names.failsOnly_encode.bind fun _ => .ok _

/-- A build that is linked without an error is written, or it is too large
for the format: neither the container nor the debug names can fail in
another way. -/
theorem SourceSet.written_or_too_large (sources : SourceSet)
    (set : InstructionSet) (options : BuildOptions) (roots : List String)
    (h : (sources.readAll set roots { warningsAsErrors :=
      options.warningsAsErrors }).link.log.hasErrors = false) :
    let linked := (sources.readAll set roots { warningsAsErrors := options.warningsAsErrors }).link
    let style : ContainerStyle := ⟨set, !options.omitDebugNames⟩
    ((∃ image, linked.program.toContainer style = .ok image)
        ∨ ∃ context, linked.program.toContainer style = .error (.countOutOfRange context))
      ∧ (∀ names : DebugNames, (∃ bytes, names.encode = .ok bytes)
        ∨ ∃ context, names.encode = .error (.countOutOfRange context))
      ∧ ((∃ built, sources.compile set options roots = .ok built)
        ∨ ∃ context, sources.compile set options roots
          = .error (linked.formatFailure (.countOutOfRange context))) := by
  intro linked style
  have hzero : linked.log.errorCount = 0 := Nat.eq_zero_of_not_pos (of_decide_eq_false h)
  have hread := (sources.extends_readAll set roots { warningsAsErrors :=
    options.warningsAsErrors }).sound (Reading.sound_empty set _)
  have hle : (sources.readAll set roots { warningsAsErrors :=
      options.warningsAsErrors }).log.errorCount ≤ linked.log.errorCount :=
    Reading.errorCount_le_link _
  have hwritable : linked.program.Writable set :=
    hread.writable_link (show linked.log.errorCount = _ by omega)
  refine ⟨(Program.failsOnly_toContainer_of_writable hwritable).cases,
    fun names => names.failsOnly_encode.cases, ?_⟩
  have hcompile : sources.compile set options roots
      = (linked.write style).mapError linked.formatFailure := by
    exact if_neg (Bool.eq_false_iff.1 h)
  rw [hcompile]
  rcases (@Reading.failsOnly_write linked style hwritable).cases with
    ⟨built, hbuilt⟩ | ⟨context, hfault⟩
  · rw [hbuilt]
    exact .inl ⟨built, rfl⟩
  · rw [hfault]
    exact .inr ⟨context, rfl⟩

namespace Sample

/-- An external namespace, and a type with a field and a method that has
a local, a branch and a label behind the last instruction. -/
def exitText : String :=
  ".extern Host\n.namespace A \x7b\n.type T \x7b\n.field x: i32\n"
    ++ ".method m(a: i32) \x7b\n.locals \x7b i: i32 \x7d\nnop\njmp exit\n"
    ++ "exit:\n\x7d\n\x7d\n\x7d\n"

def exitSources : SourceSet where
  places := ["main.casm"]
  locate _ := .ok ⟨"main.casm", List.mem_singleton_self _⟩
  load _ := .ok exitText

/-- The sample is linked without an error. -/
theorem written_or_too_large_exit :
    (exitSources.readAll .standard ["main.casm"] {}).link.log.hasErrors
        = false
      ∧ ((∃ built, exitSources.compile .standard {} ["main.casm"]
          = .ok built)
        ∨ ∃ context, exitSources.compile .standard {} ["main.casm"]
          = .error ((exitSources.readAll .standard ["main.casm"]
            {}).link.formatFailure (.countOutOfRange context))) := by
  have hadd : ({ log := {} } : Reading).add .standard "main.casm" exitText
      = ((({ log := {} } : Reading).add .standard "main.casm"
        exitText).1, []) := by
    refine Prod.ext rfl ?_
    decide +kernel
  have hread := @SourceSet.readAll_of_single exitSources .standard
    "main.casm" exitText ⟨"main.casm", List.mem_singleton_self _⟩ _ {} rfl rfl hadd
  have herrors : (exitSources.readAll .standard ["main.casm"] {}).link.log.hasErrors = false := by
    rw [hread]
    decide +kernel
  have hwritten := SourceSet.written_or_too_large exitSources .standard {} ["main.casm"] herrors
  exact ⟨herrors, hwritten.2.2⟩

end Sample

end StackAsm
