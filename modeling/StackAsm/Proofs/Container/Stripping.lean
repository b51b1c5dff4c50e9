/-
Stripped containers. The names of locals and labels that a container
leaves out are in the debug names written beside it. Reading joins the two
by the full name of a method, then by the slot of a local and the index of
a label; where full names and label indices are not repeated every name
finds its way back, and without debug names each is made up from its slot
or its byte offset.
-/
import StackAsm.Proofs.Container.RoundTrip
import StackAsm.Proofs.DebugNames.Binary

namespace StackAsm

open Encode Decode Container

-- ==== made-up names

/-- The method with made-up names for its locals and labels. -/
def Method.unnamed (method : Method) : Method :=
  { method with
    body :=
      { method.body with
        locals := method.body.locals.mapIdx fun slot var =>
          { var with name := fallbackLocal (UInt16.ofNat slot) }
        labels := method.body.labels.map fun label =>
          { label with
            name := fallbackLabel (method.body.byteOffset label) } } }

/-- The program with made-up names for all locals and labels. -/
def Program.unnamed (program : Program) : Program := program.mapMembers id Method.unnamed id

namespace ContainerStyle

variable {style : ContainerStyle}

/-- Without debug names, names that were left out are made up. -/
theorem methodRead_none (hstripped : style.stripNames = true) (method : Method) :
    style.methodRead none method = method.unnamed.forgetLines := by
  unfold methodRead bodyRead localsRead nameRead
  simp only [hstripped]
  rfl

end ContainerStyle

-- ==== lookups

namespace Method

variable {method : Method}

/-- Slots are not repeated as long as they do not wrap. -/
theorem nodup_slots {locals : List Variable} (hfits : locals.length < UInt16.size) :
    ((ContainerStyle.localNames locals).map (·.slot)).Nodup := by
  have hslots : (ContainerStyle.localNames locals).map (·.slot)
      = (List.range locals.length).map UInt16.ofNat := by
    apply List.ext_getElem
    · simp [ContainerStyle.localNames]
    · simp [ContainerStyle.localNames]
  rw [hslots]
  exact nodup_map_ofNat (Nat.le_of_lt hfits)

/-- A local finds its name by its slot. -/
theorem localName?_debugNames (hfits : method.body.locals.length < UInt16.size) {slot : Nat}
    {var : Variable} (hvar : method.body.locals[slot]? = some var) :
    method.debugNames.localName? (UInt16.ofNat slot) = some var.name := by
  have hentry : LocalName.mk var.name (UInt16.ofNat slot)
      ∈ ContainerStyle.localNames method.body.locals := by
    apply List.mem_of_getElem? (i := slot)
    rw [ContainerStyle.localNames, List.getElem?_mapIdx, hvar]
    rfl
  have hfound := find?_of_nodup (nodup_slots hfits) hentry
  show Option.map _ ((ContainerStyle.localNames method.body.locals).find? _) = _
  rw [hfound]
  rfl

/-- A label finds its name by its index. -/
theorem labelName?_debugNames (hnodup : (method.body.labels.map (·.index)).Nodup) {label : Label}
    (hlabel : label ∈ method.body.labels) :
    method.debugNames.labelName? label.index = some label.name := by
  have hfound := find?_of_nodup hnodup hlabel
  unfold MethodNames.labelName? debugNames
  rw [List.find?_map, Option.map_map]
  show Option.map _ (method.body.labels.find? fun other =>
    other.index == label.index) = _
  rw [hfound]
  rfl

/-- A method is read back from what is stored of it and its debug
names. -/
theorem methodRead_debugNames {style : ContainerStyle}
    (hfits : method.body.locals.length < UInt16.size)
    (hnodup : (method.body.labels.map (·.index)).Nodup) :
    style.methodRead (some method.debugNames.tables) method = method.forgetLines := by
  have hlocals : style.localsRead (some method.debugNames.tables)
      method.body.locals = method.body.locals := by
    unfold ContainerStyle.localsRead
    apply List.ext_getElem?
    intro slot
    rw [List.getElem?_mapIdx]
    cases hvar : method.body.locals[slot]? with
    | none => rfl
    | some =>
      rw [Option.map_some, Option.bind_some, MethodNames.get?_locals_tables,
        localName?_debugNames hfits hvar]
      unfold ContainerStyle.nameRead
      cases style.stripNames <;> rfl
  have hlabels : (style.bodyRead (some method.debugNames.tables)
      method.body).labels = method.body.labels := by
    refine (List.map_congr_left fun _ hlabel => ?_).trans (List.map_id _)
    rw [Option.bind_some, MethodNames.get?_labels_tables, labelName?_debugNames hnodup hlabel]
    unfold ContainerStyle.nameRead
    cases style.stripNames <;> rfl
  have hbody : style.bodyRead (some method.debugNames.tables) method.body
      = method.body.forgetLines := by
    show MethodBody.mk _ (style.bodyRead _ method.body).labels
      (style.localsRead _ method.body.locals) = _
    rw [hlabels, hlocals]
    rfl
  unfold ContainerStyle.methodRead
  rw [hbody]
  rfl

end Method

-- ==== whole programs

theorem TypeNames.walkAll_eq (outer : String) (types : List TypeNames) :
    walkAll outer types = types.flatMap (walk outer) := by
  induction types with
  | nil => rfl
  | cons type rest ih => rw [walkAll, ih, List.flatMap_cons]

/-- The methods of a type's debug names are those of the type, in the same
order. -/
theorem TypeDecl.walk_debugNames (outer : String) (type : TypeDecl) :
    TypeNames.walk outer type.debugNames = (walk outer type).flatMap fun entry =>
        entry.2.methods.map fun method =>
          (Text.join entry.1 method.name, method.debugNames) := by
  induction type using TypeDecl.nested_induction generalizing outer with
  | step type ih =>
    rw [walk_eq, List.flatMap_cons, List.flatMap_assoc]
    obtain ⟨_, _, _, _, _, _⟩ := type
    rw [debugNames, TypeNames.walk, TypeNames.walkAll_eq, debugNamesAll_eq,
      List.map_map, List.flatMap_map]
    congr 1
    exact List.flatMap_congr fun inner hinner => ih inner hinner _

namespace Program

theorem methods_debugNames (program : Program) :
    program.debugNames.methods = program.methods.map fun entry =>
        (Text.join entry.1 entry.2.name, entry.2.debugNames) := by
  unfold DebugNames.methods debugNames methods types
  rw [List.flatMap_map, List.map_flatMap, List.flatMap_assoc]
  refine List.flatMap_congr fun _ _ => ?_
  rw [TypeNames.walkAll_eq, TypeDecl.walkAll_eq, List.flatMap_map, List.flatMap_assoc]
  refine List.flatMap_congr fun _ _ => ?_
  rw [TypeDecl.walk_debugNames]
  refine List.flatMap_congr fun _ _ => ?_
  rw [List.map_map]
  rfl

/-- Every method finds its debug names by its full name. -/
theorem method?_debugNames {program : Program} (hnodup : (program.methods.map fun entry =>
      Text.join entry.1 entry.2.name).Nodup)
    {entry : String × Method} (hentry : entry ∈ program.methods) :
    program.debugNames.method? (Text.join entry.1 entry.2.name) = some entry.2.debugNames := by
  have hkeys : (program.debugNames.methods.reverse.map (·.1)).Nodup := by
    rw [List.map_reverse, List.nodup_reverse, methods_debugNames, List.map_map]
    exact hnodup
  have hmem : (Text.join entry.1 entry.2.name, entry.2.debugNames)
      ∈ program.debugNames.methods.reverse := by
    rw [List.mem_reverse, methods_debugNames]
    exact List.mem_map.2 ⟨entry, hentry, rfl⟩
  unfold DebugNames.method?
  rw [find?_of_nodup hkeys hmem]
  rfl

/-- Names that fit a container fit a debug name file. -/
theorem fits_debugNames {depth : Nat} {type : TypeDecl}
    (h : type.Fits depth) : type.debugNames.Fits depth := by
  induction depth generalizing type with
  | zero => exact h.elim
  | succ depth ih =>
    obtain ⟨hcount, hinner⟩ := h
    obtain ⟨_, _, _, _, _, _⟩ := type
    unfold TypeDecl.memberCount at hcount
    simp only at hcount
    rw [TypeDecl.debugNames, TypeDecl.debugNamesAll_eq]
    refine ⟨?_, ?_, ?_⟩
    · simp only [List.length_map]
      omega
    · simp only [List.length_map]
      omega
    · intro inner hmem
      obtain ⟨type, htype, rfl⟩ := List.mem_map.1 hmem
      exact ih (hinner type htype)

/-- The debug names of a program that can be loaded can be loaded too, if
their own heap is not too large. -/
theorem loadable_debugNames {program : Program} {style : ContainerStyle}
    (hloadable : program.Loadable style) (hheap : program.debugNames.heap.size ≤ countLimit) :
    program.debugNames.Loadable := by
  obtain ⟨-, hsegments, hfits⟩ := loadable_iff.1 hloadable
  refine ⟨hheap, ?_, ?_, ?_⟩
  · unfold segmentCount at hsegments
    unfold debugNames
    rw [List.length_map]
    omega
  · intro space hspace
    obtain ⟨space, hmem, rfl⟩ := List.mem_map.1 hspace
    rw [List.length_map]
    exact (hfits space hmem).1
  · intro space hspace type htype
    obtain ⟨space, hmem, rfl⟩ := List.mem_map.1 hspace
    obtain ⟨decl, hdecl, rfl⟩ := List.mem_map.1 htype
    exact fits_debugNames ((hfits space hmem).2 decl hdecl)

/-- Changing the members of a program twice changes them once by both. -/
theorem mapMembers_mapMembers (onField onField' : Field → Field)
    (onMethod onMethod' : Method → Method) (onLine onLine' : Nat → Nat) (program : Program) :
    (program.mapMembers onField onMethod onLine).mapMembers onField' onMethod' onLine'
      = program.mapMembers (onField' ∘ onField) (onMethod' ∘ onMethod)
        (onLine' ∘ onLine) := by
  have htype : ∀ type : TypeDecl, (type.mapMembers onField onMethod onLine).mapMembers onField'
          onMethod' onLine' = type.mapMembers (onField' ∘ onField) (onMethod' ∘ onMethod)
          (onLine' ∘ onLine) := by
    intro type
    induction type using TypeDecl.nested_induction with
    | step type ih =>
      have hnested := List.map_congr_left ih
      rw [TypeDecl.mapMembers_eq onField onMethod onLine type,
        TypeDecl.mapMembers_eq onField' onMethod' onLine',
        TypeDecl.mapMembers_eq (onField' ∘ onField), ← hnested]
      simp only [List.map_map]
      rfl
  unfold mapMembers
  simp only [List.map_map, TypeDecl.mapAllMembers_eq]
  congr 1
  refine List.map_congr_left fun _ _ => ?_
  simp only [Function.comp_apply, List.map_map]
  congr 1
  exact List.map_congr_left fun type _ => htype type

end Program

-- ==== the theorem

/-- What a stripped container leaves out is in its debug names and nowhere
else: with them the program comes back, and without them it comes back
with made-up names. -/
theorem Program.ofContainer_toContainer_stripped {set : InstructionSet}
    {program : Program} {image : ContainerImage} {db : DebugNames} {bytes : List UInt8}
    (himage : program.toContainer ⟨set, true⟩ = .ok image)
    (hregular : program.Regular) (hloadable : program.Loadable ⟨set, true⟩)
    (hnames : (program.methods.map fun entry =>
      Text.join entry.1 entry.2.name).Nodup)
    (hlabels : ∀ entry ∈ program.methods, (entry.2.body.labels.map (·.index)).Nodup)
    (hdebug : image.debug = some db) (hbytes : db.encode = .ok bytes)
    (hheap : db.heap.size ≤ countLimit) :
    DebugNames.decode bytes = .ok db ∧ Program.ofContainer set (some db) image.bytes
        = .ok program.forgetLines ∧ Program.ofContainer set none image.bytes
        = .ok program.unnamed.forgetLines := by
  have hwritten := debug_of_toContainer himage
  rw [hdebug, if_pos rfl, Option.some.injEq] at hwritten
  subst hwritten
  have hread := ofContainer_of_loadable himage hregular hloadable
  refine ⟨DebugNames.decode_of_loadable hbytes (loadable_debugNames hloadable hheap), ?_, ?_⟩
  · have hsome := hread (some program.debugNames)
    rw [ContainerStyle.programRead_eq_mapMembers fun entry hentry => ?_] at hsome
    · exact hsome
    · rw [Option.getD_some, DebugNames.get?_methodTable,
        method?_debugNames hnames hentry, Option.map_some]
      exact Method.methodRead_debugNames (sizes_of_toContainer himage entry hentry).1
        (hlabels entry hentry)
  · have hnone := hread none
    rw [ContainerStyle.programRead_eq_mapMembers fun entry hentry => ?_] at hnone
    · rw [hnone, forgetLines, unnamed, mapMembers_mapMembers]
      rfl
    · rw [Option.getD_none, DebugNames.get?_methodTable]
      exact ContainerStyle.methodRead_none rfl entry.2

namespace Sample

/-- The debug names of the sample can be written. -/
theorem encode_debugNames :
    ∃ bytes, program.debugNames.encode = .ok bytes ∧ program.debugNames.heap.size ≤ countLimit := by
  have hlimited : program.debugNames.Limited := by decide +kernel
  have hheap : program.debugNames.heap.size ≤ countLimit :=
    Nat.le_trans hlimited.size_heap_le (by decide +kernel)
  obtain ⟨bytes, hencode⟩ := hlimited.exists_encode
    (Nat.lt_of_le_of_lt hheap (by decide)) (by decide +kernel)
  exact ⟨bytes, hencode, hheap⟩

/-- The sample comes back from its stripped container, and its label gets
the name of its byte offset where the debug names are missing. -/
theorem ofContainer_toContainer_stripped_program :
    ∃ image db bytes, program.toContainer ⟨instructionSet, true⟩ = .ok image
      ∧ image.debug = some db ∧ db.encode = .ok bytes
      ∧ DebugNames.decode bytes = .ok db
      ∧ Program.ofContainer instructionSet (some db) image.bytes
        = .ok program.forgetLines
      ∧ Program.ofContainer instructionSet none image.bytes
        = .ok program.unnamed.forgetLines
      ∧ program.unnamed.methods.map (fun entry =>
          entry.2.body.labels.map (·.name)) = [["lbl_0003"]] := by
  obtain ⟨image, himage⟩ := toContainer_program true
  obtain ⟨bytes, hbytes, hheap⟩ := encode_debugNames
  have hdebug : image.debug = some program.debugNames := debug_of_toContainer himage
  obtain ⟨hdecode, hsome, hnone⟩ := Program.ofContainer_toContainer_stripped himage regular_program
      (loadable_program true) (by decide) (by decide) hdebug hbytes hheap
  exact ⟨image, program.debugNames, bytes, himage, hdebug, hbytes, hdecode, hsome, hnone, by decide⟩

end Sample

end StackAsm
