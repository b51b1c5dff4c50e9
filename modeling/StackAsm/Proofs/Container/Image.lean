/-
Containers, written and read back. A container holds a heap and a list of
declarations. Which containers can be read is a matter of size alone: the
heap, every list of the format and the depth of types have limits
(`Program.Loadable`), and an image past one of them is refused whole.

Reading joins namespaces of one name, drops those without types, and
takes every external once, so it gives a program back only if that changes
nothing (`Program.Regular`).
-/
import Mathlib.Data.List.Basic
import StackAsm.Proofs.Container.Tree

namespace StackAsm

open Encode Decode Container

-- ==== conditions

/-- The texts that a program puts on the heap of its container. -/
def ContainerStyle.heap (style : ContainerStyle) (program : Program) :
    StringHeap := match (style.writeBody program).run {} with
  | .ok _ heap => heap
  | .error _ heap => heap

namespace Program

/-- How many segments a program has at the top of its container. -/
def segmentCount (program : Program) : Nat :=
  program.externals.length + program.aliases.length
    + program.namespaces.length

/-- The program keeps to what readers of a container accept. -/
structure Loadable (program : Program) (style : ContainerStyle) : Prop where
  heap_le : (style.heap program).size ≤ countLimit
  segments_le : program.segmentCount ≤ countLimit
  types_le : ∀ space ∈ program.namespaces, space.types.length ≤ countLimit
  members_le : ∀ entry ∈ program.types, entry.2.memberCount ≤ countLimit
  height_le : ∀ space ∈ program.namespaces, ∀ type ∈ space.types, type.height ≤ depthLimit

/-- The program is what a reader would make of its parts. -/
structure Regular (program : Program) : Prop where
  externals_nodup : program.externals.Nodup
  names_nodup : (program.namespaces.map (·.name)).Nodup
  types_ne_nil : ∀ space ∈ program.namespaces, space.types ≠ []
  aimed : ∀ entry ∈ program.methods, entry.2.body.Aimed

end Program

/-- A namespace fits where its types do. -/
def Namespace.Fits (space : Namespace) : Prop :=
  space.types.length ≤ countLimit
    ∧ ∀ type ∈ space.types, type.Fits depthLimit

/-- A namespace as it is read. -/
def ContainerStyle.namespaceRead (style : ContainerStyle)
    (names : Table String NameTables) (space : Namespace) : Namespace :=
  { space with types := space.types.map (style.typeRead names space.name) }

/-- A program as it is read. -/
def ContainerStyle.programRead (style : ContainerStyle)
    (names : Table String NameTables) (program : Program) : Program :=
  { program with
    namespaces := program.namespaces.map (style.namespaceRead names) }

/-- The declarations of a program as they are read. -/
def ContainerStyle.declarationsRead (style : ContainerStyle)
    (names : Table String NameTables) (program : Program) :
    List Source.Declaration :=
  program.externals.map .external ++ program.aliases.map .typeAlias
    ++ program.namespaces.map fun space => .space space.name
      (space.types.map (style.typeRead names space.name))

/-- The debug names of a program. -/
def Program.debugNames (program : Program) : DebugNames := ⟨program.namespaces.map fun space =>
    ⟨space.name, space.types.map TypeDecl.debugNames⟩⟩

namespace Program

variable {program : Program}

theorem mem_types {space : Namespace} (hspace : space ∈ program.namespaces)
    {type : TypeDecl} (htype : type ∈ space.types) {entry : String × TypeDecl}
    (hentry : entry ∈ TypeDecl.walk space.name type) :
    entry ∈ program.types := by
  unfold types
  rw [List.mem_flatMap]
  refine ⟨space, hspace, ?_⟩
  rw [TypeDecl.walkAll_eq, List.mem_flatMap]
  exact ⟨type, htype, hentry⟩

theorem mem_methods {entry : String × TypeDecl} (hentry : entry ∈ program.types) {method : Method}
    (hmethod : method ∈ entry.2.methods) :
    (entry.1, method) ∈ program.methods :=
  List.mem_flatMap.2 ⟨entry, hentry, List.mem_map.2 ⟨method, hmethod, rfl⟩⟩

/-- The limits on types, namespace by namespace. -/
theorem loadable_iff {style : ContainerStyle} :
    program.Loadable style
      ↔ (style.heap program).size ≤ countLimit
        ∧ program.segmentCount ≤ countLimit
        ∧ ∀ space ∈ program.namespaces, space.Fits := by
  constructor
  · intro h
    refine ⟨h.heap_le, h.segments_le, fun space hspace =>
      ⟨h.types_le space hspace, fun type htype => ?_⟩⟩
    rw [TypeDecl.fits_iff space.name]
    exact ⟨h.height_le space hspace type htype,
      fun entry hentry => h.members_le entry (mem_types hspace htype hentry)⟩
  · rintro ⟨hheap, hsegments, hfits⟩
    refine ⟨hheap, hsegments, fun space hspace => (hfits space hspace).1, ?_, ?_⟩
    · intro entry hentry
      obtain ⟨space, hspace, hentry⟩ := List.mem_flatMap.1 hentry
      rw [TypeDecl.walkAll_eq] at hentry
      obtain ⟨type, htype, hentry⟩ := List.mem_flatMap.1 hentry
      have hfit := (hfits space hspace).2 type htype
      exact ((TypeDecl.fits_iff space.name).1 hfit).2 entry hentry
    · intro space hspace type htype
      have hfit := (hfits space hspace).2 type htype
      exact ((TypeDecl.fits_iff space.name).1 hfit).1

end Program

-- ==== writing

namespace Program

/-- The texts that a program puts on a heap, in order. -/
def textsWith (stripped : Bool) (program : Program) : List String :=
  program.types.flatMap fun entry => entry.2.ownTextsWith stripped

abbrev texts (program : Program) : List String := program.textsWith false

theorem textsWith_eq (stripped : Bool) (program : Program) :
    program.textsWith stripped = program.namespaces.flatMap fun space =>
      space.types.flatMap (TypeDecl.textsWith stripped space.name) := by
  unfold textsWith types TypeDecl.textsWith
  simp only [TypeDecl.walkAll_eq, List.flatMap_assoc]

end Program

namespace ContainerStyle

variable {style : ContainerStyle} {F : FormatFault → Prop}

theorem writes_writeNamespace {space : Namespace}
    (hname : FailsOnly F (Encode.string "namespace" space.name))
    (hcount : FailsOnly F (Encode.count32 space.types.length "namespace types"))
    (htypes : ∀ type ∈ space.types, (style.writeType space.name type).Writes
      (type.textsWith style.stripNames space.name) F) :
    (style.writeNamespace space).Writes (space.types.flatMap
      (TypeDecl.textsWith style.stripNames space.name)) F :=
  (mirrors_lift hname).bind fun _ _ _ _ =>
    (mirrors_lift hcount).bind fun _ _ _ _ =>
      (writes_writeTypes htypes).map _ _

end ContainerStyle

/-- Why the parts of a program may fail to be written. -/
structure Program.Parts (F : FormatFault → Prop) (style : ContainerStyle)
    (program : Program) : Prop where
  segments : FailsOnly F (Encode.count32 program.segmentCount "top-level segments")
  externals : ∀ path ∈ program.externals, FailsOnly F (ContainerStyle.writeExternal path)
  aliases : ∀ entry ∈ program.aliases, FailsOnly F (ContainerStyle.writeAlias entry)
  spaces : ∀ space ∈ program.namespaces, FailsOnly F (Encode.string "namespace" space.name)
      ∧ FailsOnly F (Encode.count32 space.types.length "namespace types")
  types : ∀ space ∈ program.namespaces, ∀ type ∈ space.types,
    (style.writeType space.name type).Writes (type.textsWith style.stripNames space.name) F

/-- A program is written as far as its parts are. -/
theorem Program.Parts.writes_writeBody {style : ContainerStyle}
    {F : FormatFault → Prop} {program : Program} (h : program.Parts F style) :
    (style.writeBody program).Writes (program.textsWith style.stripNames) F := by
  rw [textsWith_eq]
  refine (mirrors_lift h.segments).bind fun _ _ _ _ => ?_
  refine (mirrors_lift (.mapM h.externals)).bind fun _ _ _ _ => ?_
  refine (mirrors_lift (.mapM h.aliases)).bind fun _ _ _ _ => ?_
  refine (writes_mapM fun space hspace => ?_).map _ _
  obtain ⟨hname, hcount⟩ := h.spaces space hspace
  exact ContainerStyle.writes_writeNamespace hname hcount (h.types space hspace)

-- ==== externals, aliases

namespace Container

variable {bytes : List UInt8} {program : Program} {style : ContainerStyle} {heap : StringHeap}

theorem reads_expectNoChildren (segment : String) :
    Reads (expectNoChildren segment) (bytes32 0) () := by
  intro chunk tail position
  unfold expectNoChildren
  rw [run_bind_of_ok (reads_word32 0 chunk tail position)]
  rfl

variable (source : Source)

theorem reads_writeExternal {path : String} (h : ContainerStyle.writeExternal path = .ok bytes) :
    segmentSize ≤ bytes.length ∧ Reads source.readDeclaration bytes (.external path) := by
  obtain ⟨text, htext, h⟩ := bind_ok_iff.1 h
  rw [pure_ok_iff] at h
  subst h
  have hkind : Reads (Segment.decode "the top level" Source.isTopLevel)
      [Segment.external.code] .external := Segment.reads_decode rfl "the top level"
  have hpath : Reads readExternal (text ++ bytes32 0) path := (reads_string htext).bind
      ((reads_expectNoChildren "extern").map fun _ => path)
  refine ⟨?_, hkind.bind (hpath.map Source.Declaration.external)⟩
  have hlength := length_string htext
  simp only [List.length_cons, List.length_append, length_bytes32, segmentSize]
  omega

theorem reads_writeAlias {entry : TypeAlias} (h : ContainerStyle.writeAlias entry = .ok bytes) :
    segmentSize ≤ bytes.length ∧ Reads source.readDeclaration bytes (.typeAlias entry) := by
  obtain ⟨name, ⟨reference, dims⟩⟩ := entry
  obtain ⟨text, htext, h⟩ := bind_ok_iff.1 h
  cases reference with
  | pending => cases h
  | resolved symbol =>
    obtain ⟨target, htarget, h⟩ := bind_ok_iff.1 h
    rw [pure_ok_iff] at h
    subst h
    have hkind : Reads (Segment.decode "the top level" Source.isTopLevel)
        [Segment.typeAlias.code] .typeAlias := Segment.reads_decode rfl "the top level"
    have halias : Reads readAlias
        (text ++ ([symbol.kind.code] ++ (target ++ ([dims] ++ bytes32 0))))
        ⟨name, ⟨.resolved symbol, dims⟩⟩ := by
      refine (reads_string htext).bind (symbol.kind.reads_decode.bind
        ((reads_string htarget).bind ((reads_byte dims).bind ?_)))
      exact (reads_expectNoChildren "alias").map fun _ =>
        (⟨name, ⟨.resolved symbol, dims⟩⟩ : TypeAlias)
    constructor
    · have hlength := length_string htext
      simp only [List.length_cons, List.length_append, length_bytes32, segmentSize]
      omega
    · have hread : Reads source.readDeclaration _ _ :=
        hkind.bind (halias.map Source.Declaration.typeAlias)
      simp only [List.append_assoc, List.cons_append, List.nil_append] at hread ⊢
      exact hread

-- ==== namespaces

section Namespaces

variable {style : ContainerStyle} {space : Namespace}
  {heap later final : StringHeap} {out : List UInt8 × NamespaceNames}

/-- The parts a namespace is written as. -/
theorem writeNamespace_ok (h : (style.writeNamespace space).run heap = .ok out later) :
    ∃ name types, Encode.string "namespace" space.name = .ok name
      ∧ space.types.length < UInt32.size
      ∧ (space.types.mapM (style.writeType space.name)).run heap
        = .ok types later
      ∧ out = (Segment.space.code :: (name
          ++ (littleEndian 4 space.types.length
          ++ (types.map (·.1.toList)).flatten)),
        ⟨space.name, types.map (·.2)⟩) := by
  obtain ⟨name, _, hname, h⟩ := run_bind_ok_iff.1 h
  obtain ⟨hname, rfl⟩ := run_lift_ok_iff.1 hname
  obtain ⟨_, _, hcount, h⟩ := run_bind_ok_iff.1 h
  obtain ⟨hfits, rfl, rfl⟩ := run_count32_ok_iff.1 hcount
  obtain ⟨_, htypes, rfl⟩ := run_bind_pure_ok_iff.1 h
  obtain ⟨outs, houts, hbytes, hnames⟩ := writeTypes_ok htypes
  refine ⟨name, outs, ‹_›, hfits, houts, ?_⟩
  rw [hbytes, hnames, List.cons_append, List.cons_append, List.append_assoc]

theorem extends_writeNamespace (style : ContainerStyle)
    (space : Namespace) : (style.writeNamespace space).Extends :=
  (ContainerStyle.writes_writeNamespace (Checks.failsOnly_string False.elim _)
    (Checks.failsOnly_count32 False.elim _)
    fun _ _ => ContainerStyle.writes_writeType fun _ _ => .of_none).extends

theorem length_writeNamespace (h : (style.writeNamespace space).run heap = .ok out later) :
    segmentSize ≤ out.1.length := by
  obtain ⟨_, _, hname, -, -, rfl⟩ := writeNamespace_ok h
  have hlength := length_string hname
  simp only [List.length_cons, List.length_append, length_littleEndian, segmentSize]
  omega

theorem names_of_writeNamespace (h : (style.writeNamespace space).run heap = .ok out later) :
    out.2 = ⟨space.name, space.types.map TypeDecl.debugNames⟩ := by
  obtain ⟨_, types, -, -, htypes, rfl⟩ := writeNamespace_ok h
  have hnames : types.map (·.2) = space.types.map TypeDecl.debugNames :=
    map_eq_of_forall₂ (forall₂_of_run_mapM htypes)
      fun _ _ _ ⟨_, _, hrun⟩ => names_of_writeType hrun
  rw [hnames]

/-- A namespace that was written is read back if it fits, and refused if
it does not. -/
theorem decides_writeNamespace (hsmall : final.size ≤ countLimit) (hgrows : later.Grows final)
    (h : (style.writeNamespace space).run heap = .ok out later) (names : Table String NameTables)
    (haimed : ∀ type ∈ space.types, ∀ entry ∈ TypeDecl.walk space.name type,
        ∀ method ∈ entry.2.methods, method.body.Aimed) :
    Decides (Source.readDeclaration ⟨style.set, final, names⟩) out.1
      space.Fits (.space space.name
        (space.types.map (style.typeRead names space.name))) := by
  obtain ⟨_, types, hname, hcount, htypes, rfl⟩ := writeNamespace_ok h
  have hkind := @Segment.reads_decode .space Source.isTopLevel rfl "the top level"
  have hread : DecidesEach (Segment.expect "a namespace" .type >>= fun _ =>
        Source.readType ⟨style.set, final, names⟩ space.name depthLimit)
      segmentSize (types.map (·.1.toList)) _ :=
    decidesEach_types names (fun _ _ type hread =>
        (Segment.reads_expect "a namespace" .type).bind_decides hread) htypes
      fun type htype _ ⟨_, _, hrun, hafter⟩ => readType_of_write names
        hsmall (hafter.trans hgrows) hrun (haimed type htype)
  have hcounted := hread.counted (List.length_map _) hcount
    "namespace types" (Source.Declaration.space space.name)
  simp only [List.map_map, Function.comp_def, List.forall_mem_map] at hcounted
  exact hkind.bind_decides ((reads_string hname).bind_decides hcounted)

end Namespaces

-- ==== assembly

theorem eraseDups_of_nodup {items : List String} (h : items.Nodup) : items.eraseDups = items := by
  induction items with
  | nil => rfl
  | cons item items ih =>
    rw [List.nodup_cons] at h
    have hfilter : (items.filter fun other => !other == item) = items := by
      rw [List.filter_eq_self]
      intro other hother
      have hne : other ≠ item := fun heq => h.1 (heq ▸ hother)
      simp [hne]
    rw [List.eraseDups_cons, hfilter, ih h.2]

/-- Only one of several namespaces has a name that all have apart. -/
theorem filter_name_of_nodup {spaces : List Namespace} {space : Namespace}
    (h : (spaces.map (·.name)).Nodup) (hspace : space ∈ spaces) :
    (spaces.filter fun other => other.name == space.name) = [space] := by
  induction spaces with
  | nil => cases hspace
  | cons first rest ih =>
    rw [List.map_cons, List.nodup_cons] at h
    rw [List.filter_cons]
    rcases List.mem_cons.1 hspace with rfl | hspace
    · have hnone : (rest.filter fun other => other.name == space.name) = [] := by
        rw [List.filter_eq_nil_iff]
        intro other hother heq
        exact h.1 (List.mem_map.2 ⟨other, hother, beq_iff_eq.1 heq⟩)
      rw [if_pos (beq_self_eq_true _), hnone]
    · have hne : (first.name == space.name) = false := by
        rw [beq_eq_false_iff_ne]
        intro heq
        exact h.1 (List.mem_map.2 ⟨space, hspace, heq.symm⟩)
      simp only [hne]
      exact ih h.2 hspace

/-- Namespaces of different names stay as they are. -/
theorem mergeNamespaces_of_nodup {spaces : List Namespace} (h : (spaces.map (·.name)).Nodup) :
    Source.mergeNamespaces spaces = spaces := by
  unfold Source.mergeNamespaces
  rw [eraseDups_of_nodup h, List.map_map]
  refine (List.map_congr_left fun space hspace => ?_).trans (List.map_id spaces)
  show Namespace.mk space.name _ = space
  rw [Table.group_groupBy, filter_name_of_nodup h hspace, List.flatMap_singleton]

/-- Declarations are put together as the program they were taken from. -/
theorem assemble_of_regular (h : program.Regular) (style : ContainerStyle)
    (names : Table String NameTables) :
    Source.assemble (style.declarationsRead names program) = style.programRead names program := by
  have hspaces : (program.namespaces.filterMap fun space =>
        Source.Declaration.space? (.space space.name
          (space.types.map (style.typeRead names space.name))))
      = program.namespaces.map (style.namespaceRead names) := by
    rw [List.filterMap_eq_map_iff_forall_eq_some]
    intro space hspace
    have hne : (space.types.map (style.typeRead names space.name)).isEmpty = false := by
      have hsome := h.types_ne_nil space hspace
      simpa using hsome
    unfold Source.Declaration.space?
    simp only [hne]
    rfl
  have hnames : ((program.namespaces.map (style.namespaceRead names)).map (·.name)).Nodup := by
    rw [List.map_map]
    exact h.names_nodup
  unfold Source.assemble ContainerStyle.programRead ContainerStyle.declarationsRead
  simp only [List.filterMap_append, List.filterMap_map, Function.comp_def, hspaces]
  simp only [Source.Declaration.external?, Source.Declaration.typeAlias?,
    Source.Declaration.space?, List.filterMap_none, List.filterMap_some,
    List.append_nil, List.nil_append, mergeNamespaces_of_nodup hnames,
    eraseDups_of_nodup h.externals_nodup]

-- ==== the image

/-- What follows the heap in a container. -/
theorem writeBody_ok {later : StringHeap} {out : List UInt8 × DebugNames}
    (h : (style.writeBody program).run heap = .ok out later) :
    ∃ externals aliases spaces, program.segmentCount < UInt32.size
      ∧ program.externals.mapM ContainerStyle.writeExternal = .ok externals
      ∧ program.aliases.mapM ContainerStyle.writeAlias = .ok aliases
      ∧ (program.namespaces.mapM style.writeNamespace).run heap
        = .ok spaces later
      ∧ out = (littleEndian 4 program.segmentCount
          ++ (externals ++ aliases ++ spaces.map (·.1)).flatten,
        ⟨spaces.map (·.2)⟩) := by
  obtain ⟨_, _, hcount, h⟩ := run_bind_ok_iff.1 h
  obtain ⟨hfits, rfl, rfl⟩ := run_count32_ok_iff.1 hcount
  obtain ⟨externals, _, hexternals, h⟩ := run_bind_ok_iff.1 h
  obtain ⟨hexternals', rfl⟩ := run_lift_ok_iff.1 hexternals
  obtain ⟨aliases, _, haliases, h⟩ := run_bind_ok_iff.1 h
  obtain ⟨haliases', rfl⟩ := run_lift_ok_iff.1 haliases
  obtain ⟨spaces, hspaces, rfl⟩ := run_bind_pure_ok_iff.1 h
  refine ⟨externals, aliases, spaces, hfits, hexternals', haliases', hspaces, ?_⟩
  simp only [List.flatten_append, List.append_assoc]
  rfl

/-- What a container is made of. -/
theorem toContainer_ok {image : ContainerImage} (h : program.toContainer style = .ok image) :
    ∃ texts body names, (style.writeBody program).run {}
        = .ok (body, names) (style.heap program)
      ∧ Encode.heap (style.heap program) = .ok texts
      ∧ image = ⟨bytes16 version
          ++ ([if style.stripNames then strippedFlag else 0]
          ++ (texts ++ body)), if style.stripNames then some names else none⟩
        := by
  unfold Program.toContainer at h
  split at h
  · cases h
  · rename_i body names heap hrun
    have hheap : style.heap program = heap := by
      unfold ContainerStyle.heap
      rw [hrun]
    obtain ⟨texts, htexts, h⟩ := bind_ok_iff.1 h
    rw [pure_ok_iff] at h
    refine ⟨texts, body, names, hheap ▸ hrun, hheap ▸ htexts, ?_⟩
    rw [← h]
    simp only [List.append_assoc, List.cons_append, List.nil_append]

/-- A program is written as far as its parts and its heap are. -/
theorem failsOnly_toContainer {F : FormatFault → Prop} (h : program.Parts F style)
    (hheap : FailsOnly F (Encode.heap (style.heap program))) :
    FailsOnly F (program.toContainer style) := by
  unfold ContainerStyle.heap at hheap
  unfold Program.toContainer
  cases hrun : (style.writeBody program).run {} with
  | error => exact .error (h.writes_writeBody.error hrun)
  | ok =>
    rw [hrun] at hheap
    exact hheap.bind fun _ => .ok _

/-- The heap of a program that is written, before it is. -/
theorem heap_of_parts {F : FormatFault → Prop} (h : program.Parts F style)
    (hF : ∀ fault, ¬ F fault) :
    style.heap program = StringHeap.internAll {} (program.textsWith style.stripNames) := by
  obtain ⟨_, hrun⟩ := h.writes_writeBody.exists_run hF {}
  unfold ContainerStyle.heap
  rw [hrun]

/-- The front of a container is read up to its heap. -/
theorem decides_readHeader {texts : List UInt8} {fits : Prop}
    (htexts : Decides Decode.heap texts fits heap) (stripped : Bool) :
    Decides readHeader (bytes16 version ++ ([if stripped then strippedFlag else 0] ++ texts))
      fits ⟨stripped, heap⟩ := by
  refine (reads_word16 version).bind_decides ((reads_byte _).bind_decides ?_)
  cases stripped with
  | false => exact htexts.map fun heap => Header.mk false heap
  | true => exact htexts.map fun heap => Header.mk true heap

/-- The declarations of a written container are read back, or refused if
they are too many or one of them is a namespace that does not fit. -/
theorem decides_writeBody (hregular : program.Regular)
    {final : StringHeap} {out : List UInt8 × DebugNames} (hsmall : final.size ≤ countLimit)
    (h : (style.writeBody program).run heap = .ok out final) (names : Table String NameTables) :
    Decides (Decode.count32 segmentSize "top-level segments" >>= fun count =>
        Decode.times count fun _ =>
          Source.readDeclaration ⟨style.set, final, names⟩) out.1
      (program.segmentCount ≤ countLimit ∧ ∀ space ∈ program.namespaces, space.Fits)
      (style.declarationsRead names program) := by
  obtain ⟨externals, aliases, spaces, hcount, hexternals, haliases, hspaces, rfl⟩ := writeBody_ok h
  let source : Source := ⟨style.set, final, names⟩
  have hexternals : DecidesEach source.readDeclaration segmentSize (externals.map id) _ :=
    decidesEach_of_forall₂ (forall₂_of_mapM_ok hexternals)
      fun _ _ bytes hpath =>
        (reads_writeExternal source hpath).imp_right Reads.decides
  have haliases : DecidesEach source.readDeclaration segmentSize (aliases.map id) _ :=
    decidesEach_of_forall₂ (forall₂_of_mapM_ok haliases)
      fun entry _ bytes hentry =>
        (reads_writeAlias source hentry).imp_right Reads.decides
  have hspaces : DecidesEach source.readDeclaration segmentSize (spaces.map (·.1)) _ :=
    decidesEach_of_forall₂ (wrote_of_mapM (extends_writeNamespace style) hspaces).2
      fun _ hspace _ ⟨_, _, hrun, hafter⟩ =>
        ⟨length_writeNamespace hrun, decides_writeNamespace hsmall hafter hrun names
            fun _ htype entry hentry _ hmethod =>
              hregular.aimed _ (Program.mem_methods
                (Program.mem_types hspace htype hentry) hmethod)⟩
  have hall := ((hexternals.append haliases).append hspaces).counted
    (by simp only [List.length_append, List.length_map,
      Program.segmentCount]) hcount "top-level segments" id
  simp only [List.map_append, List.map_map, Function.comp_def, bind_pure,
    List.forall_mem_append, List.forall_mem_map, implies_true, true_and, List.map_id, id] at hall
  exact hall

/-- Read the declarations of a container. -/
def readDeclarations (set : InstructionSet) (names : Option DebugNames) :
    Decode (List Source.Declaration) := do
  let header ← readHeader
  let source : Source := ⟨set, header.heap, (names.getD {}).methodTable MethodNames.tables⟩
  let count ← Decode.count32 segmentSize "top-level segments"
  Decode.times count fun _ => source.readDeclaration

/-- A container is its declarations and nothing more. -/
theorem read_eq (set : InstructionSet) (names : Option DebugNames) : read set names = do
      let declarations ← readDeclarations set names
      Decode.finish
      return Source.assemble declarations := by
  unfold read readDeclarations
  simp only [bind_assoc]

/-- Bytes that the reader refuses hold no program. -/
theorem ofContainer_of_refuses {set : InstructionSet}
    {names : Option DebugNames} (h : Refuses (read set names) bytes) :
    ∃ fault, Program.ofContainer set names bytes = .error fault := by
  obtain ⟨fault, _, hrun⟩ := h "container" [] 0
  rw [List.append_nil] at hrun
  unfold Program.ofContainer
  rw [hrun]
  exact ⟨fault, rfl⟩

section Image

variable {style : ContainerStyle} {program : Program}
  {image : ContainerImage} (himage : program.toContainer style = .ok image)

include himage

/-- The debug names that come with a container are those of its program,
and only if it was stripped. -/
theorem debug_of_toContainer :
    image.debug = if style.stripNames then some program.debugNames else none := by
  obtain ⟨_, _, _, hbody, -, rfl⟩ := toContainer_ok himage
  obtain ⟨_, _, spaces, -, -, -, hspaces, hout⟩ := writeBody_ok hbody
  have hnames : spaces.map (·.2) = program.namespaces.map fun space =>
      ⟨space.name, space.types.map TypeDecl.debugNames⟩ :=
    map_eq_of_forall₂ (forall₂_of_run_mapM hspaces)
      fun space _ _ ⟨_, _, hrun⟩ => names_of_writeNamespace hrun
  rw [Prod.mk.injEq] at hout
  rw [hout.2, hnames]
  rfl

/-- Every method in a container was written. -/
theorem exists_writeMethod_of_toContainer :
    ∀ entry ∈ program.methods, ∃ before written after,
      (style.writeMethod entry.1 entry.2).run before
        = .ok written after := by
  obtain ⟨_, _, _, hbody, -, -⟩ := toContainer_ok himage
  obtain ⟨_, _, _, -, -, -, hspaces, -⟩ := writeBody_ok hbody
  intro entry hentry
  obtain ⟨owner, howner, hentry⟩ := List.mem_flatMap.1 hentry
  obtain ⟨method, hmethod, rfl⟩ := List.mem_map.1 hentry
  obtain ⟨space, hspace, howner⟩ := List.mem_flatMap.1 howner
  rw [TypeDecl.walkAll_eq] at howner
  obtain ⟨type, htype, howner⟩ := List.mem_flatMap.1 howner
  obtain ⟨_, -, before, after, hrun⟩ :=
    (exists_of_forall₂ (forall₂_of_run_mapM hspaces)).1 space hspace
  obtain ⟨_, _, -, -, htypes, -⟩ := writeNamespace_ok hrun
  obtain ⟨_, -, before, after, hrun⟩ :=
    (exists_of_forall₂ (forall₂_of_run_mapM htypes)).1 type htype
  exact exists_writeMethod_of_writeType hrun owner howner method hmethod

/-- A method that was written has no more locals than slots, and its
instructions can be counted. -/
theorem sizes_of_toContainer :
    ∀ entry ∈ program.methods, entry.2.body.locals.length < UInt16.size
        ∧ entry.2.body.instructions.length < UInt32.size := by
  intro entry hentry
  obtain ⟨_, _, _, hrun⟩ := exists_writeMethod_of_toContainer himage entry hentry
  obtain ⟨_, _, _, _, _, _, _, _, _, _, _,
    -, -, -, -, -, -, -, hlocals, hcode, -⟩ := writeMethod_ok hrun
  exact ⟨hlocals, hcode⟩

/-- The declarations of a container are those of its program, if that keeps
to the limits; else the container is refused. -/
theorem decides_readDeclarations (hregular : program.Regular) (names : Option DebugNames) :
    Decides (readDeclarations style.set names) image.bytes
      (program.Loadable style) (style.declarationsRead
        ((names.getD {}).methodTable MethodNames.tables) program) := by
  obtain ⟨texts, _, _, hbody, htexts, rfl⟩ := toContainer_ok himage
  have hheap : Decides Decode.heap texts
      ((style.heap program).size ≤ countLimit) (style.heap program) :=
    ⟨reads_heap htexts, fun hlarge =>
      refuses_heap htexts (Nat.lt_of_not_le hlarge)⟩
  have hall : Decides (readDeclarations style.set names) _ _ _ :=
    (decides_readHeader hheap style.stripNames).bind fun hsmall =>
      decides_writeBody hregular hsmall hbody ((names.getD {}).methodTable MethodNames.tables)
  rw [← Program.loadable_iff] at hall
  exact hall

theorem run_readDeclarations_of_loadable (hregular : program.Regular)
    (hloadable : program.Loadable style) (names : Option DebugNames) :
    (readDeclarations style.set names).run ⟨"container", image.bytes, 0⟩
      = .ok (style.declarationsRead ((names.getD {}).methodTable MethodNames.tables) program)
        ⟨"container", [], 0 + image.bytes.length⟩ := by
  have hrun := (decides_readDeclarations himage hregular names).1 hloadable "container" [] 0
  rwa [List.append_nil] at hrun

/-- A container whose program is regular is read back if it keeps to the
limits. -/
theorem ofContainer_of_loadable (hregular : program.Regular)
    (hloadable : program.Loadable style) (names : Option DebugNames) :
    Program.ofContainer style.set names image.bytes
      = .ok (style.programRead
        ((names.getD {}).methodTable MethodNames.tables) program) := by
  unfold Program.ofContainer
  rw [read_eq, run_bind_of_ok (run_readDeclarations_of_loadable himage
    hregular hloadable names), ← assemble_of_regular hregular]
  rfl

/-- A container past one of the limits is refused. -/
theorem ofContainer_of_not_loadable (hregular : program.Regular)
    (hloadable : ¬ program.Loadable style) (names : Option DebugNames) :
    ∃ fault, Program.ofContainer style.set names image.bytes = .error fault := by
  apply ofContainer_of_refuses
  rw [read_eq]
  exact ((decides_readDeclarations himage hregular names).2 hloadable).bind _

end Image

end Container

end StackAsm
