/-
Writing, whatever the order. Whether a writer can write does not depend
on what was written before, and neither do the texts it puts on its heap
(`Encode.Mirrors`). So of two programs that differ in the order of their
declarations both can be written or neither: their heaps hold the same
texts, each once (`Program.exists_toContainer_of_alike`). The same goes
for the names left out of a container
(`Program.exists_encode_of_alike`).
-/
import StackAsm.Proofs.Container.Sizes
import StackAsm.Proofs.DebugNames.Binary
import StackAsm.Proofs.Program.Order

namespace StackAsm

open Container Encode

-- ==== heaps

/-- A heap with the entries of another is written if that one is. -/
theorem Encode.never_fails_heap_of_perm {written other : StringHeap}
    {bytes : List UInt8} (h : heap written = .ok bytes)
    (hperm : written.entries.toList.Perm other.entries.toList) :
    FailsOnly (fun _ => False) (heap other) := by
  obtain ⟨_, hcount, h⟩ := bind_ok_iff.1 h
  obtain ⟨_, htexts, -⟩ := bind_ok_iff.1 h
  have hsize : written.size = other.size := hperm.length_eq
  rw [hsize] at hcount
  refine (FailsOnly.of_ok hcount).bind fun _ => ?_
  refine FailsOnly.bind (.mapM fun text htext => ?_) fun _ => .ok _
  obtain ⟨_, -, hpart⟩ := (exists_of_forall₂
    (forall₂_of_mapM_ok htexts)).1 text (hperm.mem_iff.2 htext)
  exact .of_ok hpart

-- ==== programs

namespace Program

variable {program other : Program} {style : ContainerStyle}

theorem Reorders.exists_namespace (h : program.Reorders other)
    {space : Namespace} (hspace : space ∈ other.namespaces) :
    ∃ own ∈ program.namespaces, own.name = space.name ∧ own.types.Perm space.types := by
  obtain ⟨_, hperm, hsame⟩ := h.namespaces
  obtain ⟨i, hi⟩ := List.getElem?_of_mem (hperm.mem_iff.2 hspace)
  obtain ⟨hlt, rfl⟩ := List.getElem?_eq_some_iff.1 hi
  rw [List.forall₂_iff_get] at hsame
  have hown : i < program.namespaces.length := by rwa [hsame.1]
  exact ⟨_, List.getElem_mem hown, hsame.2 i hown hlt⟩

theorem Reorders.length_namespaces (h : program.Reorders other) :
    program.namespaces.length = other.namespaces.length := by
  obtain ⟨_, hperm, hsame⟩ := h.namespaces
  exact hsame.length_eq.trans hperm.length_eq

/-- The parts of a program that was written never fail. -/
theorem parts_of_run {heap later : StringHeap} {out : List UInt8 × DebugNames}
    (h : (style.writeBody program).run heap = .ok out later) :
    program.Parts (fun _ => False) style := by
  obtain ⟨_, _, _, hsegments, hexternals, haliases, hspaces, -⟩ := writeBody_ok h
  have hspace := (exists_of_forall₂ (forall₂_of_run_mapM hspaces)).1
  refine ⟨.of_ok (count32_ok_iff.2 ⟨hsegments, rfl⟩), fun path hpath => ?_,
    fun entry hentry => ?_, fun space hmem => ?_, fun space hmem type htype => ?_⟩
  · obtain ⟨bytes, -, hbytes⟩ := (exists_of_forall₂ (forall₂_of_mapM_ok hexternals)).1 path hpath
    exact .of_ok hbytes
  · obtain ⟨bytes, -, hbytes⟩ := (exists_of_forall₂ (forall₂_of_mapM_ok haliases)).1 entry hentry
    exact .of_ok hbytes
  · obtain ⟨out, -, before, after, hrun⟩ := hspace space hmem
    obtain ⟨name, types, hname, hlt, -⟩ := writeNamespace_ok hrun
    exact ⟨.of_ok hname, .of_ok (count32_ok_iff.2 ⟨hlt, rfl⟩)⟩
  · obtain ⟨out, -, before, after, hrun⟩ := hspace space hmem
    obtain ⟨name, types, -, -, htypes, -⟩ := writeNamespace_ok hrun
    obtain ⟨_, -, _, _, hwritten⟩ :=
      (exists_of_forall₂ (forall₂_of_run_mapM htypes)).1 type htype
    exact (ContainerStyle.writes_writeType fun _ _ => TypeDecl.Passes.of_none).never_fails hwritten

/-- The parts of a program do not depend on their order. -/
theorem Parts.reorder {F : FormatFault → Prop} (h : program.Parts F style)
    (halike : program.Alike other) (hreorders : program.Reorders other) :
    other.Parts F style where
  segments := by
    have hsegments := h.segments
    unfold segmentCount at hsegments ⊢
    rwa [← halike.externals.length_eq, ← halike.aliases.length_eq, ← hreorders.length_namespaces]
  externals path hpath := h.externals path (halike.externals.mem_iff.2 hpath)
  aliases entry hentry := h.aliases entry (halike.aliases.mem_iff.2 hentry)
  spaces space hspace := by
    obtain ⟨own, hown, hname, htypes⟩ := hreorders.exists_namespace hspace
    rw [← hname, ← htypes.length_eq]
    exact h.spaces own hown
  types space hspace type htype := by
    obtain ⟨own, hown, hname, htypes⟩ := hreorders.exists_namespace hspace
    rw [← hname]
    exact h.types own hown type (htypes.mem_iff.2 htype)

/-- The texts of a program do not depend on the order of its parts. -/
theorem Alike.perm_textsWith (h : program.Alike other) (stripped : Bool) :
    (program.textsWith stripped).Perm (other.textsWith stripped) := by
  have hspread : ∀ program : Program, program.textsWith stripped
      = program.spread.flatMap fun entry =>
        entry.2.textsWith stripped entry.1 := by
    intro program
    rw [textsWith_eq]
    unfold Program.spread
    simp only [List.flatMap_assoc, List.flatMap_map]
  rw [hspread, hspread]
  exact h.spread.flatMap_right _

/-- A program can be written if it can be in another order. -/
theorem exists_toContainer_of_alike {image : ContainerImage}
    (h : program.toContainer style = .ok image)
    (halike : program.Alike other) (hprogram : program.Listed) (hother : other.Listed) :
    ∃ image, other.toContainer style = .ok image := by
  obtain ⟨_, _, _, hbody, hheap, -⟩ := toContainer_ok h
  have hparts := parts_of_run hbody
  have hmoved := hparts.reorder halike (halike.reorders hprogram hother)
  rw [heap_of_parts hparts fun _ => id] at hheap
  refine (failsOnly_toContainer hmoved ?_).exists_ok fun _ => id
  rw [heap_of_parts hmoved fun _ => id]
  exact never_fails_heap_of_perm hheap (StringHeap.perm_internAll
    fun _ => (halike.perm_textsWith _).mem_iff)

end Program

-- ==== left out names

namespace DebugNames

variable {db other : DebugNames}

/-- Whether the namespaces of other names are all there, their types in
any order. -/
def Covers (db other : DebugNames) : Prop :=
  ∀ space ∈ other.namespaces, ∃ own ∈ db.namespaces,
    own.name = space.name ∧ own.types.Perm space.types

theorem Covers.mem_texts (h : db.Covers other) {text : String}
    (htext : text ∈ other.texts) : text ∈ db.texts := by
  obtain ⟨space, hspace, htext⟩ := List.mem_flatMap.1 htext
  obtain ⟨own, hown, hname, htypes⟩ := h space hspace
  refine List.mem_flatMap.2 ⟨own, hown, ?_⟩
  rw [hname]
  exact ((htypes.flatMap_right TypeNames.texts).cons _).mem_iff.2 htext

/-- The parts of names that were written never fail. -/
theorem parts_of_run {heap later : StringHeap} {bytes : List UInt8}
    (h : db.encodeBody.run heap = .ok bytes later) :
    db.Parts (fun _ => False) := by
  obtain ⟨_, _, hcount, h⟩ := run_bind_ok_iff.1 h
  obtain ⟨hcount, -⟩ := run_lift_ok_iff.1 hcount
  obtain ⟨_, _, hbody, -⟩ := run_bind_ok_iff.1 h
  obtain ⟨_, hparts, -⟩ := run_all_ok_iff.1 hbody
  have hspace : ∀ space ∈ db.namespaces, FailsOnly (fun _ => False)
          (count32 space.types.length "cpdb types") ∧ ∀ type ∈ space.types,
          type.encode.Writes type.texts fun _ => False := by
    intro space hmem
    obtain ⟨_, -, _, _, hrun⟩ :=
      (exists_of_forall₂ (forall₂_of_run_mapM hparts)).1 space hmem
    obtain ⟨_, _, -, hrun⟩ := run_bind_ok_iff.1 hrun
    obtain ⟨_, _, hcount, hrun⟩ := run_bind_ok_iff.1 hrun
    obtain ⟨hfits, rfl⟩ := run_lift_ok_iff.1 hcount
    obtain ⟨_, _, hpieces, -⟩ := run_bind_ok_iff.1 hrun
    obtain ⟨_, houts, -⟩ := TypeNames.encodeAll_ok hpieces
    refine ⟨.of_ok hfits, fun type htype => ?_⟩
    obtain ⟨_, -, _, _, hwritten⟩ :=
      (exists_of_forall₂ (forall₂_of_run_mapM houts)).1 type htype
    exact (@type.writes_encode .none False.elim).never_fails hwritten
  exact ⟨.of_ok hcount, fun space hmem => (hspace space hmem).1,
    fun space hmem => (hspace space hmem).2⟩

theorem Parts.reorder {F : FormatFault → Prop} (h : db.Parts F) (hcovers : db.Covers other)
    (hlength : other.namespaces.length = db.namespaces.length) :
    other.Parts F where
  count := by
    rw [hlength]
    exact h.count
  counts space hspace := by
    obtain ⟨own, hown, -, htypes⟩ := hcovers space hspace
    rw [← htypes.length_eq]
    exact h.counts own hown
  types space hspace type htype := by
    obtain ⟨own, hown, -, htypes⟩ := hcovers space hspace
    exact h.types own hown type (htypes.mem_iff.2 htype)

/-- Names can be written if they can be in another order. -/
theorem exists_encode_of_covers {bytes : List UInt8}
    (h : db.encode = .ok bytes) (hcovers : db.Covers other) (hback : other.Covers db)
    (hlength : other.namespaces.length = db.namespaces.length) :
    ∃ bytes, other.encode = .ok bytes := by
  unfold encode at h
  split at h
  · cases h
  · rename_i body heap hrun
    obtain ⟨_, hheap, -⟩ := bind_ok_iff.1 h
    have hparts := parts_of_run hrun
    obtain ⟨rfl, -⟩ := hparts.writes_encodeBody.ok hrun
    have hothers := never_fails_heap_of_perm hheap
      (@StringHeap.perm_internAll db.texts other.texts
        fun _ => ⟨hback.mem_texts, hcovers.mem_texts⟩)
    obtain ⟨_, hout⟩ := (hparts.reorder hcovers
      hlength).writes_encodeBody.exists_run (fun _ => id) {}
    unfold encode
    rw [hout]
    exact (hothers.bind fun _ => .ok _).exists_ok fun _ => id

end DebugNames

namespace Program

variable {program other : Program}

theorem Reorders.covers (h : program.Reorders other) :
    program.debugNames.Covers other.debugNames := by
  intro space hspace
  obtain ⟨_, hmoved, rfl⟩ := List.mem_map.1 hspace
  obtain ⟨_, hown, hname, htypes⟩ := h.exists_namespace hmoved
  exact ⟨_, List.mem_map_of_mem hown, hname, htypes.map _⟩

/-- The names of a program can be written if they can be in another
order. -/
theorem exists_encode_of_alike {bytes : List UInt8} (h : program.debugNames.encode = .ok bytes)
    (halike : program.Alike other) (hprogram : program.Listed) (hother : other.Listed) :
    ∃ bytes, other.debugNames.encode = .ok bytes := by
  have hreorders := halike.reorders hprogram hother
  refine DebugNames.exists_encode_of_covers h hreorders.covers
    (halike.symm.reorders hother hprogram).covers ?_
  show (other.namespaces.map _).length = (program.namespaces.map _).length
  rw [List.length_map, List.length_map, hreorders.length_namespaces]

end Program

end StackAsm
