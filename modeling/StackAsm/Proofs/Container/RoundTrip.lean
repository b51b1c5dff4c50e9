/-
The container round trip. A program that is written with its names and
read again is the program without its lines; this needs what a reader
checks (`Program.Loadable`), and that the program is in the shape a reader
gives it (`Program.Regular`), and nothing else.
-/
import StackAsm.Proofs.Container.Image

namespace StackAsm

open Encode Decode Container

-- ==== names that stay

/-- Without lines, a method is all that its container holds. -/
def Method.forgetLines (method : Method) : Method := { method.forgetCodeLines with line := 0 }

namespace ContainerStyle

variable {style : ContainerStyle}

/-- Where every method is read in one way, the program is changed member
by member. -/
theorem programRead_eq_mapMembers {names : Table String NameTables}
    {onMethod : Method → Method} {program : Program}
    (h : ∀ entry ∈ program.methods,
      style.methodRead (names.get? (Text.join entry.1 entry.2.name)) entry.2
        = onMethod entry.2) :
    style.programRead names program
      = program.mapMembers Field.forgetLine onMethod (fun _ => 0) := by
  have hspaces : program.namespaces.map (style.namespaceRead names)
      = program.namespaces.map fun space =>
        { space with
          types := TypeDecl.mapAllMembers Field.forgetLine onMethod (fun _ => 0) space.types } := by
    refine List.map_congr_left fun space hspace => ?_
    unfold namespaceRead
    rw [TypeDecl.mapAllMembers_eq]
    congr 1
    refine List.map_congr_left fun _ htype => ?_
    refine style.typeRead_eq_mapMembers names ?_
    intro entry hentry method hmethod
    exact h (entry.1, method) (Program.mem_methods (Program.mem_types hspace htype hentry) hmethod)
  unfold programRead Program.mapMembers
  rw [hspaces]

/-- Names that are stored are read as they are. -/
theorem methodRead_of_kept (hkept : style.stripNames = false)
    (names : Option NameTables) (method : Method) :
    style.methodRead names method = method.forgetLines := by
  have hname : ∀ name known fallback, style.nameRead name known fallback = name := by
    intro name known fallback
    unfold nameRead
    rw [hkept]
    rfl
  have hlabels : (method.body.labels.map fun label =>
        { label with
          name := style.nameRead label.name (names.bind (·.labels.get? label.index))
            (fallbackLabel (method.body.byteOffset label)) })
      = method.body.labels := by
    simp only [hname]
    exact List.map_id _
  have hlocals : style.localsRead names method.body.locals = method.body.locals := by
    unfold localsRead
    simp only [hname]
    apply List.ext_getElem?
    simp
  unfold methodRead bodyRead
  rw [hlabels, hlocals]
  rfl

end ContainerStyle

-- ==== the round trip

/-- A program that was written with its names is read back without its
lines, and otherwise as it was. -/
theorem Program.ofContainer_toContainer {set : InstructionSet}
    {program : Program} {image : ContainerImage}
    (himage : program.toContainer ⟨set, false⟩ = .ok image)
    (hregular : program.Regular) (hloadable : program.Loadable ⟨set, false⟩) :
    Program.ofContainer set none image.bytes = .ok program.forgetLines := by
  have hread := ofContainer_of_loadable himage hregular hloadable none
  rw [ContainerStyle.programRead_eq_mapMembers fun entry _ =>
    ContainerStyle.methodRead_of_kept rfl _ entry.2] at hread
  exact hread

-- ==== a sample

namespace Sample

/-- Two instructions: one with a two-byte opcode, and a branch. -/
def instructionSet : InstructionSet where
  parents := [0xFF]
  forms := [⟨"tostr", .extended 0xFF 0x00, [], .byKind, .plain⟩,
    ⟨"jmp", .single 0x50, [.label], .byKind, .branch⟩]
  sound := by decide

/-- A method that never ends: its second instruction jumps to itself. -/
def loop : Method where
  name := "loop"
  attrs := ⟨Attributes.staticBit⟩
  params := [⟨"p", .void⟩]
  body :=
    { instructions := [⟨.extended 0xFF 0x00, [], 4⟩, ⟨.single 0x50, [.label 0 (some 1)], 5⟩]
      labels := [⟨"again", 0, some 1⟩]
      locals := [⟨"i", .void⟩] }
  line := 3

/-- One type with a field, a method and a type in it, beside an external
namespace and an alias. -/
def program : Program where
  namespaces := [⟨"App",
    [{ name := "Main"
       fields := [{ name := "f", type := .void, line := 2 }]
       methods := [loop]
       nested := [{ name := "Inner", line := 6 }]
       line := 1 }]⟩]
  externals := ["Sys"]
  aliases := [⟨"none", .void⟩]

/-- The texts of the sample, in the order of their writing. -/
def texts (stripped : Bool) : List String :=
  ["Main", "f", "void", "loop", "void", "p", "void"]
    ++ (if stripped then ["void"] else ["i", "void", "again"]) ++ ["Inner"]

/-- The same texts, each once. -/
def entries (stripped : Bool) : List String :=
  ["Main", "f", "void", "loop", "p"]
    ++ (if stripped then [] else ["i", "again"]) ++ ["Inner"]

-- The run depends on the heap only through what is interned, which stays
-- closed here: the table behind a heap cannot be evaluated.
seal StringHeap.intern in
theorem run_writeBody (stripped : Bool) :
    ∃ out, (ContainerStyle.writeBody ⟨instructionSet, stripped⟩ program).run {}
      = .ok out ((texts stripped).foldl
        (fun heap text => (heap.intern text).2) {}) := by
  cases stripped with
  | false => exact ⟨_, rfl⟩
  | true => exact ⟨_, rfl⟩

theorem heap_program (stripped : Bool) :
    ContainerStyle.heap ⟨instructionSet, stripped⟩ program = .ofEntries (entries stripped) := by
  obtain ⟨_, hrun⟩ := run_writeBody stripped
  have hempty : ({} : StringHeap) = .ofEntries [] := rfl
  unfold ContainerStyle.heap
  rw [hrun, hempty]
  cases stripped <;>
    simp [texts, entries, StringHeap.intern_ofEntries, List.idxOf?, List.findIdx?_cons]

/-- The sample can be written, with or without its names. -/
theorem toContainer_program (stripped : Bool) :
    ∃ image, program.toContainer ⟨instructionSet, stripped⟩ = .ok image := by
  obtain ⟨_, hrun⟩ := run_writeBody stripped
  have hheap := heap_program stripped
  unfold ContainerStyle.heap at hheap
  rw [hrun] at hheap
  have htexts : ∃ bytes, Encode.heap (.ofEntries (entries stripped)) = .ok bytes := by
    cases stripped with
    | false => exact ⟨_, rfl⟩
    | true => exact ⟨_, rfl⟩
  obtain ⟨bytes, htexts⟩ := htexts
  unfold Program.toContainer
  rw [hrun]
  simp only [hheap, htexts]
  exact ⟨_, rfl⟩

theorem aimed_loop : loop.body.Aimed := by
  intro instruction hin index target hop
  simp only [loop, List.mem_cons, List.not_mem_nil, or_false] at hin
  rcases hin with rfl | rfl
  · cases hop
  · rw [List.mem_singleton, Operand.label.injEq] at hop
    obtain ⟨rfl, rfl⟩ := hop
    exact ⟨⟨"again", 0, some 1⟩, 1, rfl, rfl, rfl⟩

theorem methods_program : program.methods = [("App.Main", loop)] := by
  decide

theorem regular_program : program.Regular where
  externals_nodup := by decide
  names_nodup := by decide
  types_ne_nil := by decide
  aimed := by
    rw [methods_program]
    intro entry hentry
    rw [List.mem_singleton] at hentry
    rw [hentry]
    exact aimed_loop

theorem loadable_program (stripped : Bool) : program.Loadable ⟨instructionSet, stripped⟩ where
  heap_le := by
    rw [heap_program]
    cases stripped <;> decide
  segments_le := by decide
  types_le := by decide
  members_le := by decide
  height_le := by decide

end Sample

/-- The sample comes back from its container. -/
theorem Sample.ofContainer_toContainer_program :
    ∃ image, program.toContainer ⟨instructionSet, false⟩ = .ok image
      ∧ program.Regular ∧ program.Loadable ⟨instructionSet, false⟩
      ∧ Program.ofContainer instructionSet none image.bytes
        = .ok program.forgetLines := by
  obtain ⟨image, himage⟩ := toContainer_program false
  exact ⟨image, himage, regular_program, loadable_program false,
    Program.ofContainer_toContainer himage regular_program (loadable_program false)⟩

end StackAsm
