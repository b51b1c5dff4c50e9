/-
Reading and writing again. A container may hold what no writer would put
there: texts twice or for nothing, externals and namespaces in several
parts, members in any order, locals and labels without names, several
labels of one index. Reading it settles all that, so the program can be
written, and what is written is read as the same program. Only sizes can
get in the way: the format counts in four bytes, and a reader accepts no
count over its limit.
-/
import StackAsm.Proofs.Container.Loading
import StackAsm.Proofs.Container.Stripping

namespace StackAsm

open Container

-- ==== lines

theorem ContainerStyle.programRead_unnamed {style : ContainerStyle}
    (hstripped : style.stripNames = true) (program : Program) :
    style.programRead ((Option.getD none {} : DebugNames).methodTable MethodNames.tables) program
      = program.unnamed.forgetLines := by
  rw [programRead_eq_mapMembers fun entry _ => ?_, Program.forgetLines,
    Program.unnamed, Program.mapMembers_mapMembers]
  · rfl
  · rw [Option.getD_none, DebugNames.get?_methodTable]
    exact methodRead_none hstripped entry.2

namespace Program

variable {set : InstructionSet} {program : Program}

theorem mapMembers_of_loaded (h : program.Loaded set) :
    program.mapMembers Field.forgetLine Method.forgetLines (fun _ => 0) = program := by
  have hmethod : ∀ method : Method, method.Loaded set → method.forgetLines = method := by
    intro method hloaded
    have hcode : method.body.instructions.map (fun instruction => { instruction with line := 0 })
        = method.body.instructions := by
      refine (List.map_congr_left fun instruction hmem => ?_).trans (List.map_id _)
      rw [← hloaded.lines instruction hmem]
      rfl
    unfold Method.forgetLines Method.forgetCodeLines MethodBody.forgetLines
    rw [hcode, ← hloaded.line]
  have htype : ∀ space ∈ program.namespaces, ∀ type ∈ space.types,
      type.mapMembers Field.forgetLine Method.forgetLines (fun _ => 0)
        = type := by
    intro space hspace type htype
    refine TypeDecl.mapMembers_eq_self space.name fun entry hentry => ?_
    have hloaded := h.types entry (mem_types hspace htype hentry)
    refine ⟨fun field hfield => ?_, fun method hmem =>
      hmethod method (hloaded.methods method hmem), hloaded.line.symm⟩
    unfold Field.forgetLine
    rw [← (hloaded.fields field hfield).1]
  unfold mapMembers
  have hspaces : program.namespaces.map (fun space =>
        { space with
          types := TypeDecl.mapAllMembers Field.forgetLine
            Method.forgetLines (fun _ => 0) space.types })
      = program.namespaces := by
    refine (List.map_congr_left fun space hspace => ?_).trans (List.map_id _)
    rw [TypeDecl.mapAllMembers_eq, List.map_congr_left (htype space hspace), List.map_id']
    rfl
  rw [hspaces]

-- ==== sizes

theorem writable_of_loaded (h : program.Loaded set) : program.Writable set := by
  refine ⟨fun entry hentry => (h.aliases entry hentry).2.1, ?_⟩
  refine All.of_forall_types fun entry hentry => ?_
  have hloaded := h.types entry hentry
  exact ⟨fun field hfield => (hloaded.fields field hfield).2,
    fun method hmethod => (hloaded.methods method hmethod).writable⟩

theorem memberCount_of_loaded (h : program.Loaded set) :
    ∀ entry ∈ program.types, entry.2.memberCount ≤ countLimit := by
  intro entry hentry
  obtain ⟨space, hspace, hentry⟩ := List.mem_flatMap.1 hentry
  obtain ⟨type, htype, hentry⟩ := TypeDecl.mem_walkAll.1 hentry
  exact ((TypeDecl.fits_iff space.name).1 (h.fits space hspace type htype)).2 entry hentry

theorem loadable_of_loaded (h : program.Loaded set) {style : ContainerStyle}
    (hheap : (style.heap program).size ≤ countLimit)
    (htypes : ∀ space ∈ program.namespaces,
      space.types.length ≤ countLimit) : program.Loadable style where
  heap_le := hheap
  segments_le := h.segments_le
  types_le := htypes
  members_le := memberCount_of_loaded h
  height_le space hspace type htype :=
    ((TypeDecl.fits_iff space.name).1 (h.fits space hspace type htype)).1

/-- Every type has a text, its name. -/
theorem length_types_le_texts {space : Namespace} (hspace : space ∈ program.namespaces) :
    space.types.length ≤ program.texts.length := by
  have hown : ∀ types : List TypeDecl, types.length
      ≤ (types.flatMap (TypeDecl.texts space.name)).length := by
    intro types
    induction types with
    | nil => exact Nat.le_refl _
    | cons =>
      rw [List.flatMap_cons, List.length_append, List.length_cons,
        TypeDecl.texts, TypeDecl.textsWith_eq, TypeDecl.ownTextsWith]
      simp only [List.cons_append, List.length_cons]
      omega
  have hsub : (space.types.flatMap (TypeDecl.texts space.name)).Sublist program.texts := by
    rw [texts, textsWith_eq]
    exact List.sublist_flatten_of_mem (List.mem_map.2 ⟨space, hspace, rfl⟩)
  exact Nat.le_trans (hown space.types) hsub.length_le

theorem sized_of_loaded (h : program.Loaded set)
    (hstorable : ∀ text ∈ program.texts, Text.Storable text)
    (hspaces : ∀ space ∈ program.namespaces,
      space.types.length < UInt32.size) : program.Sized where
  segments_lt := Nat.lt_of_le_of_lt h.segments_le (by decide)
  externals := h.externals
  aliases entry hentry := ⟨(h.aliases entry hentry).1, (h.aliases entry hentry).2.2⟩
  names := h.names
  spaces_lt := hspaces
  types entry hentry :=
    ⟨Nat.lt_of_le_of_lt (memberCount_of_loaded h entry hentry) (by decide),
      fun method hmethod =>
        ((h.types entry hentry).methods method hmethod).sized⟩
  texts := hstorable

section Sizes

variable (h : program.Loaded set) (hstorable : ∀ text ∈ program.texts, Text.Storable text)
  (hspaces : ∀ space ∈ program.namespaces, space.types.length < UInt32.size)
include h hstorable hspaces

theorem size_heap_le_texts :
    (ContainerStyle.heap ⟨set, false⟩ program).size
      ≤ program.texts.length :=
  size_heap_of_sized (writable_of_loaded h) (sized_of_loaded h hstorable hspaces)

/-- A program that was read is written again if its namespaces and its
heap are counted in four bytes. -/
theorem toContainer_of_loaded
    (hheap : (ContainerStyle.heap ⟨set, false⟩ program).size
      < UInt32.size) :
    ∃ image, program.toContainer ⟨set, false⟩ = .ok image :=
  toContainer_of_sized (writable_of_loaded h) (sized_of_loaded h hstorable hspaces) hheap

end Sizes

/-- Each text took an index of four bytes where it was read, so the texts
of less than sixteen gibibytes are counted in four bytes. -/
theorem toContainer_of_small (h : program.Loaded set) {bytes : List UInt8}
    (hholds : Holds bytes program.texts) (hsmall : bytes.length < 4 * UInt32.size) :
    ∃ image, program.toContainer ⟨set, false⟩ = .ok image := by
  have htexts : program.texts.length < UInt32.size := by
    have hroom := hholds.room
    omega
  have hspaces : ∀ space ∈ program.namespaces,
      space.types.length < UInt32.size := fun space hspace =>
    Nat.lt_of_le_of_lt (length_types_le_texts hspace) htexts
  exact toContainer_of_loaded h hholds.storable hspaces
    (Nat.lt_of_le_of_lt (size_heap_le_texts h hholds.storable hspaces) htexts)

-- ==== normal form

theorem ofContainer_of_loaded (h : program.Loaded set) {image : ContainerImage}
    (himage : program.toContainer ⟨set, false⟩ = .ok image)
    (hloadable : program.Loadable ⟨set, false⟩) :
    ofContainer set none image.bytes = .ok program := by
  have hread := ofContainer_of_loadable himage h.regular hloadable none
  rw [ContainerStyle.programRead_eq_mapMembers fun entry _ =>
    ContainerStyle.methodRead_of_kept rfl _ entry.2,
    mapMembers_of_loaded h] at hread
  exact hread

end Program

end StackAsm
