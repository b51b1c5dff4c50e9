/-
Types, written and read back. Reading a type counts how deep it is, and
every list of members has a limit; what a type must keep to is `Fits`. A
type that fits is read back, with the methods that reading gives it, and
one that does not is refused: `readType_of_write` says both, by induction
on the depth that is left, so a container is never read in part.
-/
import StackAsm.Proofs.Container.Method

namespace StackAsm

open Encode Decode Container

-- ==== limits

namespace TypeDecl

/-- A type can be read where `depth` more levels may nest. -/
def Fits : Nat → TypeDecl → Prop
  | 0, _ => False
  | depth + 1, type =>
    type.memberCount ≤ countLimit ∧ ∀ inner ∈ type.nested, Fits depth inner

/-- Fitting is a matter of height and of the number of members. -/
theorem fits_iff {depth : Nat} {type : TypeDecl} (outer : String) :
    Fits depth type
      ↔ type.height ≤ depth
        ∧ ∀ entry ∈ walk outer type, entry.2.memberCount ≤ countLimit := by
  induction depth generalizing type outer with
  | zero =>
    have hpos := type.height_pos
    constructor
    · exact False.elim
    · rintro ⟨hheight, -⟩
      omega
  | succ depth ih =>
    rw [Fits, height_le_succ_iff, walk_eq, List.forall_mem_cons]
    constructor
    · rintro ⟨hcount, hinner⟩
      refine ⟨fun inner h => ((ih outer).1 (hinner inner h)).1, hcount, ?_⟩
      intro entry hentry
      obtain ⟨inner, h, hentry⟩ := List.mem_flatMap.1 hentry
      exact ((ih _).1 (hinner inner h)).2 entry hentry
    · rintro ⟨hheight, hcount, hcounts⟩
      refine ⟨hcount, fun inner h => (ih (Text.join outer type.name)).2
        ⟨hheight inner h, fun entry hentry => ?_⟩⟩
      exact hcounts entry (List.mem_flatMap.2 ⟨inner, h, hentry⟩)

-- ==== what reading gives

end TypeDecl

/-- A field as it is read. -/
def Field.forgetLine (field : Field) : Field := { field with line := 0 }

mutual

/-- A type as it is read, when `names` has the debug names by the full
names of methods. -/
def ContainerStyle.typeRead (style : ContainerStyle)
    (names : Table String NameTables) (outer : String) :
    TypeDecl → TypeDecl
  | ⟨name, attrs, fields, methods, nested, _⟩ =>
    let full := Text.join outer name
    ⟨name, attrs, fields.map Field.forgetLine, methods.map fun method =>
        style.methodRead (names.get? (Text.join full method.name)) method,
      typesRead style names full nested, 0⟩

def ContainerStyle.typesRead (style : ContainerStyle)
    (names : Table String NameTables) (outer : String) :
    List TypeDecl → List TypeDecl
  | [] => []
  | type :: rest =>
    typeRead style names outer type :: typesRead style names outer rest

end

mutual

/-- The debug names of a type. -/
def TypeDecl.debugNames : TypeDecl → TypeNames
  | ⟨name, _, _, methods, nested, _⟩ =>
    ⟨name, debugNamesAll nested, methods.map Method.debugNames⟩

def TypeDecl.debugNamesAll : List TypeDecl → List TypeNames
  | [] => []
  | type :: rest => debugNames type :: debugNamesAll rest

end

theorem TypeDecl.debugNamesAll_eq (types : List TypeDecl) :
    debugNamesAll types = types.map debugNames := by
  induction types with
  | nil => rfl
  | cons type rest ih => rw [debugNamesAll, ih, List.map_cons]

namespace ContainerStyle

variable (style : ContainerStyle) (names : Table String NameTables)

theorem typesRead_eq (outer : String) (types : List TypeDecl) :
    style.typesRead names outer types = types.map (style.typeRead names outer) := by
  induction types with
  | nil => rfl
  | cons type rest ih => rw [typesRead, ih, List.map_cons]

/-- If every method is read in one way, whatever its full name, so is
every member of the type. -/
theorem typeRead_eq_mapMembers {onMethod : Method → Method} {outer : String} {type : TypeDecl}
    (h : ∀ entry ∈ TypeDecl.walk outer type, ∀ method ∈ entry.2.methods,
      style.methodRead (names.get? (Text.join entry.1 method.name)) method
        = onMethod method) :
    style.typeRead names outer type = type.mapMembers Field.forgetLine onMethod (fun _ => 0) := by
  induction type using TypeDecl.nested_induction generalizing outer with
  | step type ih =>
    have hown := h _ (TypeDecl.self_mem_walk outer type)
    have hnested : ∀ inner ∈ type.nested, style.typeRead names (Text.join outer type.name) inner
          = inner.mapMembers Field.forgetLine onMethod (fun _ => 0) :=
      fun inner hinner => ih inner hinner fun entry hentry =>
        h entry (TypeDecl.mem_walk_of_nested hinner hentry)
    rw [TypeDecl.mapMembers_eq, ← List.map_congr_left hnested,
      ← List.map_congr_left hown, ← typesRead_eq]
    obtain ⟨_, _, _, _, _, _⟩ := type
    rfl

end ContainerStyle

-- ==== writing

def Field.texts (field : Field) : List String := field.name :: field.type.reference.texts

namespace TypeDecl

/-- The texts of a type, those of nested types left out. -/
def ownTextsWith (stripped : Bool) (type : TypeDecl) : List String :=
  type.name :: type.fields.flatMap Field.texts
    ++ type.methods.flatMap (Method.textsWith stripped)

/-- The texts of a type and of the types nested in it. -/
def textsWith (stripped : Bool) (outer : String) (type : TypeDecl) :
    List String := (walk outer type).flatMap fun entry => entry.2.ownTextsWith stripped

abbrev texts (outer : String) (type : TypeDecl) : List String := type.textsWith false outer

theorem textsWith_eq (stripped : Bool) (outer : String) (type : TypeDecl) :
    type.textsWith stripped outer = type.ownTextsWith stripped
      ++ type.nested.flatMap
        (textsWith stripped (Text.join outer type.name)) := by
  unfold textsWith
  rw [walk_eq, List.flatMap_cons, List.flatMap_assoc]

/-- What the checks make sure of for a type, types nested in it left
out. -/
structure Passes (checks : Checks) (set : InstructionSet) (type : TypeDecl) : Prop where
  members : checks.sized → type.memberCount < UInt32.size
  fields : checks.resolved → ∀ field ∈ type.fields, field.type.reference.isPending = false
  methods : ∀ method ∈ type.methods, method.Passes checks set

theorem Passes.of_none {set : InstructionSet} {type : TypeDecl} :
    type.Passes .none set := ⟨False.elim, False.elim, fun _ _ => .of_none⟩

end TypeDecl

namespace ContainerStyle

theorem writes_writeField (checks : Checks) {field : Field}
    (h : checks.resolved → field.type.reference.isPending = false) :
    (writeField field).Writes field.texts checks.Leaves :=
  (writes_heapString field.name).bind fun _ _ _ _ =>
    (TypeSpec.writes_encode checks h).map _ _

variable {style : ContainerStyle} {outer : String}

theorem writes_writeTypes {F : FormatFault → Prop}
    {texts : TypeDecl → List String} {types : List TypeDecl}
    (h : ∀ type ∈ types, (style.writeType outer type).Writes (texts type) F) :
    (style.writeTypes outer types).Writes (types.flatMap texts) F := by
  induction types with
  | nil => exact writes_pure _
  | cons type rest ih =>
    rw [List.forall_mem_cons] at h
    exact h.1.bind fun _ _ _ _ => (ih h.2).map _ _

theorem writes_writeType {checks : Checks} {type : TypeDecl}
    (h : ∀ entry ∈ type.walk outer, entry.2.Passes checks style.set) :
    (style.writeType outer type).Writes (type.textsWith style.stripNames outer) checks.Leaves := by
  induction type using TypeDecl.nested_induction generalizing outer with
  | step type ih =>
    have hself := h _ (type.self_mem_walk outer)
    have hinner := fun inner hinner => ih inner hinner fun entry hentry =>
      h entry (TypeDecl.mem_walk_of_nested hinner hentry)
    rw [TypeDecl.textsWith_eq]
    obtain ⟨name, _, _, _, _, _⟩ := type
    unfold writeType TypeDecl.ownTextsWith
    simp only [List.cons_append, List.append_assoc]
    refine (writes_heapString name).bind fun _ _ _ _ => ?_
    refine (mirrors_lift (Checks.failsOnly_count32 hself.members _)).bind fun _ _ _ _ => ?_
    refine (writes_all fun field hfield => writes_writeField checks
      fun hcheck => hself.fields hcheck field hfield).bind fun _ _ _ _ => ?_
    refine (writes_mapM fun method hmethod =>
      writes_writeMethod _ (hself.methods method hmethod)).bind fun _ _ _ _ => ?_
    exact (writes_writeTypes hinner).map _ _

end ContainerStyle

namespace Container

variable {style : ContainerStyle} {outer : String} {heap later : StringHeap}
  {out : Pieces × TypeNames} {type : TypeDecl}

/-- Several types are written one by one. -/
theorem writeTypes_ok {types : List TypeDecl} {out : Pieces × List TypeNames}
    (h : (style.writeTypes outer types).run heap = .ok out later) :
    ∃ outs, (types.mapM (style.writeType outer)).run heap = .ok outs later
      ∧ out.1.toList = (outs.map (·.1.toList)).flatten
      ∧ out.2 = outs.map (·.2) := by
  induction types generalizing heap out with
  | nil =>
    obtain ⟨rfl, rfl⟩ := run_pure_ok_iff.1 h
    exact ⟨[], run_mapM_nil_ok_iff.2 ⟨rfl, rfl⟩, Pieces.toList_one _, rfl⟩
  | cons type rest ih =>
    obtain ⟨first, mid, hfirst, h⟩ := run_bind_ok_iff.1 h
    obtain ⟨_, hothers, rfl⟩ := run_bind_pure_ok_iff.1 h
    obtain ⟨outs, houts, hbytes, hnames⟩ := ih hothers
    refine ⟨first :: outs, run_mapM_cons_ok_iff.2 ⟨first, mid, outs, hfirst, houts, rfl⟩, ?_, ?_⟩
    · rw [Pieces.toList_append, hbytes, List.map_cons, List.flatten_cons]
    · rw [hnames, List.map_cons]

/-- The parts a type is written as. -/
theorem writeType_ok (h : (style.writeType outer type).run heap = .ok out later) :
    ∃ name fields methods nested h₁ h₂ h₃, (Encode.heapString type.name).run heap = .ok name h₁
      ∧ type.memberCount < UInt32.size
      ∧ (type.fields.mapM ContainerStyle.writeField).run h₁ = .ok fields h₂
      ∧ (type.methods.mapM (style.writeMethod (Text.join outer type.name))).run h₂ = .ok methods h₃
      ∧ (type.nested.mapM (style.writeType (Text.join outer type.name))).run h₃ = .ok nested later
      ∧ out.1.toList = Segment.type.code :: (name
          ++ (bytes16 type.attrs.bits ++ (littleEndian 4 type.memberCount
          ++ (fields ++ methods.map (·.1)
            ++ nested.map (·.1.toList)).flatten)))
      ∧ out.2 = ⟨type.name, nested.map (·.2), methods.map (·.2)⟩ := by
  obtain ⟨_, _, _, _, _, _⟩ := type
  obtain ⟨nameBytes, h₁, hname, h⟩ := run_bind_ok_iff.1 h
  obtain ⟨_, _, hcount, h⟩ := run_bind_ok_iff.1 h
  obtain ⟨hfits, rfl, rfl⟩ := run_count32_ok_iff.1 hcount
  obtain ⟨_, h₂, hall, h⟩ := run_bind_ok_iff.1 h
  obtain ⟨fieldParts, hfields, rfl⟩ := run_all_ok_iff.1 hall
  obtain ⟨written, h₃, hmethods, h⟩ := run_bind_ok_iff.1 h
  obtain ⟨_, hinner, rfl⟩ := run_bind_pure_ok_iff.1 h
  obtain ⟨outs, houts, hbytes, hnames⟩ := writeTypes_ok hinner
  refine ⟨nameBytes, fieldParts, written, outs, h₁, h₂, h₃, hname, hfits,
    hfields, hmethods, houts, ?_, ?_⟩
  · rw [Pieces.toList_append, Pieces.toList_one, hbytes]
    simp only [List.flatten_append, List.append_assoc, List.cons_append]
    rfl
  · rw [← hnames]

theorem extends_writeField (field : Field) :
    (ContainerStyle.writeField field).Extends :=
  (ContainerStyle.writes_writeField .none False.elim).extends

theorem extends_writeType (outer : String) (type : TypeDecl) :
    (style.writeType outer type).Extends :=
  (ContainerStyle.writes_writeType fun _ _ => .of_none).extends

/-- No segment is shorter than the reader takes for granted. -/
theorem length_writeType (h : (style.writeType outer type).run heap = .ok out later) :
    segmentSize ≤ out.1.toList.length := by
  obtain ⟨_, _, _, _, _, _, _, hname, -, -, -, -, hbytes, -⟩ := writeType_ok h
  rw [hbytes]
  simp only [List.length_cons, List.length_append, length_heapString hname,
    length_bytes16, length_littleEndian, segmentSize]
  omega

/-- The names that a written type leaves to the debug names. -/
theorem names_of_writeType (h : (style.writeType outer type).run heap = .ok out later) :
    out.2 = type.debugNames := by
  induction type using TypeDecl.nested_induction generalizing outer heap later out with
  | step type ih =>
    obtain ⟨name, fields, methods, nested, _, _, _, -, -, -, hmethods,
      hnested, -, hnames⟩ := writeType_ok h
    have hmethodNames : methods.map (·.2) = type.methods.map Method.debugNames :=
      map_eq_of_forall₂ (forall₂_of_run_mapM hmethods)
        fun _ _ out ⟨_, _, hrun⟩ => names_of_writeMethod hrun
    have hnestedNames : nested.map (·.2) = type.nested.map TypeDecl.debugNames :=
      map_eq_of_forall₂ (forall₂_of_run_mapM hnested)
        fun inner hinner out ⟨_, _, hrun⟩ => ih inner hinner hrun
    rw [hnames, hmethodNames, hnestedNames, ← TypeDecl.debugNamesAll_eq]
    obtain ⟨name, _, fields, methods, nested, _⟩ := type
    rfl

/-- Every method in a type that was written was written itself. -/
theorem exists_writeMethod_of_writeType
    (h : (style.writeType outer type).run heap = .ok out later) :
    ∀ entry ∈ TypeDecl.walk outer type, ∀ method ∈ entry.2.methods,
      ∃ before written after, (style.writeMethod entry.1 method).run before
        = .ok written after := by
  induction type using TypeDecl.nested_induction generalizing outer heap later out with
  | step type ih =>
    obtain ⟨_, _, _, _, _, _, _, -, -, -, hmethods,
      hnested, -⟩ := writeType_ok h
    rw [TypeDecl.walk_eq, List.forall_mem_cons]
    constructor
    · intro method hmethod
      obtain ⟨written, -, before, after, hrun⟩ :=
        (exists_of_forall₂ (forall₂_of_run_mapM hmethods)).1 method hmethod
      exact ⟨before, written, after, hrun⟩
    · intro entry hentry
      obtain ⟨inner, hinner, hentry⟩ := List.mem_flatMap.1 hentry
      obtain ⟨written, -, before, after, hrun⟩ :=
        (exists_of_forall₂ (forall₂_of_run_mapM hnested)).1 inner hinner
      exact ih inner hinner hrun entry hentry

-- ==== reading

/-- A field is read back without its line. -/
theorem reads_writeField {field : Field} {final : StringHeap}
    {bytes : List UInt8} (hgrows : later.Grows final) (hsmall : final.size ≤ countLimit)
    (h : (ContainerStyle.writeField field).run heap = .ok bytes later)
    (source : Source) (hsource : source.heap = final) (full : String)
    (readNested : Decode TypeDecl) :
    segmentSize ≤ bytes.length
      ∧ Reads (source.readMember full readNested) bytes
        (.field field.forgetLine) := by
  obtain ⟨name, mid, hname, h⟩ := run_bind_ok_iff.1 h
  obtain ⟨type, htype, rfl⟩ := run_bind_pure_ok_iff.1 h
  have hmid : mid.Grows final := (field.type.extends_encode _ _ _ htype).trans hgrows
  subst hsource
  have hkind := @Segment.reads_decode .field Source.isMember rfl "a type"
  have hread : Reads source.readField
      (name ++ (bytes16 field.attrs.bits ++ type)) field.forgetLine := by
    refine (reads_heapString (hmid.lasts hsmall) hname).bind
      ((reads_word16 field.attrs.bits).bind ?_)
    exact (TypeSpec.reads_encode (hgrows.lasts hsmall) htype).map fun type =>
      Field.mk field.name ⟨field.attrs.bits⟩ type 0
  simp only [List.cons_append, List.append_assoc]
  refine ⟨?_, hkind.bind (hread.map Source.Member.field)⟩
  simp only [List.length_cons, List.length_append, length_heapString hname,
    length_bytes16, TypeSpec.length_encode htype, segmentSize]
  omega

/-- Members that stand together are told apart by their kinds. -/
theorem gather_eq (name : String) (attrs : UInt16) (fields : List Field)
    (methods : List Method) (nested : List TypeDecl) :
    Source.gather name attrs (fields.map .field ++ methods.map .method
        ++ nested.map .nested)
      = ⟨name, ⟨attrs⟩, fields, methods, nested, 0⟩ := by
  unfold Source.gather
  simp [List.filterMap_map]

/-- The members of a type, put together as they are read. -/
theorem gather_typeRead (names : Table String NameTables) (outer : String) (type : TypeDecl) :
    Source.gather type.name type.attrs.bits
        ((type.fields.map fun field => .field field.forgetLine)
          ++ (type.methods.map fun method => .method (style.methodRead
            (names.get? (Text.join (Text.join outer type.name) method.name)) method))
          ++ (type.nested.map fun inner => .nested
            (style.typeRead names (Text.join outer type.name) inner)))
      = style.typeRead names outer type := by
  have hgather := gather_eq type.name type.attrs.bits (type.fields.map Field.forgetLine)
    (type.methods.map fun method => style.methodRead
      (names.get? (Text.join (Text.join outer type.name) method.name)) method)
    (type.nested.map (style.typeRead names (Text.join outer type.name)))
  rw [List.map_map, List.map_map, List.map_map, ← ContainerStyle.typesRead_eq] at hgather
  obtain ⟨_, _, _, _, _, _⟩ := type
  exact hgather

section Final

variable {final : StringHeap} (names : Table String NameTables)

/-- Types that were written one behind the other. `each` reads one of them
with its segment kind, for a type or for a namespace. -/
theorem decidesEach_types {γ : Type} {each : Decode γ}
    {wrap : TypeDecl → γ} {readInner : Decode TypeDecl}
    (heach : ∀ rest fits type, readInner.Decides rest fits type →
      each.Decides (Segment.type.code :: rest) fits (wrap type))
    {types : List TypeDecl} {fits : TypeDecl → Prop} {outs : List (Pieces × TypeNames)}
    (h : (types.mapM (style.writeType outer)).run heap = .ok outs later)
    (hinner : ∀ type ∈ types, ∀ out, (style.writeType outer type).Wrote later out →
      ∃ rest, out.1.toList = Segment.type.code :: rest
        ∧ readInner.Decides rest (fits type) (style.typeRead names outer type)) :
    DecidesEach each segmentSize (outs.map (·.1.toList)) (types.map fun type =>
        (fits type, wrap (style.typeRead names outer type))) := by
  refine decidesEach_of_forall₂ (wrote_of_mapM (extends_writeType outer) h).2
    fun type htype out hout => ?_
  obtain ⟨rest, hbytes, hread⟩ := hinner type htype out hout
  obtain ⟨_, _, hrun, -⟩ := hout
  refine ⟨length_writeType hrun, ?_⟩
  rw [hbytes]
  exact heach rest _ _ hread

/-- A type that was written is read back if it fits, and refused if it
does not. -/
theorem readType_of_write {depth : Nat} (hsmall : final.size ≤ countLimit)
    (hgrows : later.Grows final) (h : (style.writeType outer type).run heap = .ok out later)
    (haimed : ∀ entry ∈ TypeDecl.walk outer type, ∀ method ∈ entry.2.methods, method.body.Aimed) :
    ∃ rest, out.1.toList = Segment.type.code :: rest
      ∧ Decides (Source.readType ⟨style.set, final, names⟩ outer depth) rest
        (type.Fits depth) (style.typeRead names outer type) := by
  induction depth generalizing outer type heap later out with
  | zero =>
    obtain ⟨name, fields, methods, nested, h₁, h₂, h₃, -, -, -, -, -, hbytes, -⟩ := writeType_ok h
    refine ⟨_, hbytes, False.elim, fun _ _ _ _ => ?_⟩
    exact ⟨_, _, rfl⟩
  | succ depth ih =>
    obtain ⟨name, fields, methods, nested, h₁, h₂, h₃, hname, hcount,
      hfields, hmethods, hnested, hbytes, -⟩ := writeType_ok h
    -- the heap only grows, so what was named on the way is in the last one
    have hg₃ : h₃.Grows final := (wrote_of_mapM (extends_writeType _) hnested).1.trans hgrows
    have hg₂ : h₂.Grows final := (wrote_of_mapM (extends_writeMethod style _) hmethods).1.trans hg₃
    have hg₁ : h₁.Grows final := (wrote_of_mapM extends_writeField hfields).1.trans hg₂
    let full := Text.join outer type.name
    let each := Source.readMember ⟨style.set, final, names⟩ full
      (Source.readType ⟨style.set, final, names⟩ full depth)
    have hkind := fun segment h =>
      @Segment.reads_decode segment Source.isMember h "a type"
    have hfields : DecidesEach each segmentSize (fields.map id) _ :=
      decidesEach_of_forall₂ (wrote_of_mapM extends_writeField hfields).2
        fun _ _ _ ⟨_, _, hrun, hafter⟩ =>
          (reads_writeField (hafter.trans hg₂) hsmall hrun _ rfl full _).imp_right Reads.decides
    have hmethods : DecidesEach each segmentSize (methods.map (·.1)) _ := decidesEach_of_forall₂
        (wrote_of_mapM (extends_writeMethod style full) hmethods).2
        fun method hmethod out ⟨_, _, hrun, hafter⟩ => by
          obtain ⟨rest, hbytes, hlength, hread⟩ := reads_writeMethod hsmall (hafter.trans hg₃) hrun
            (haimed _ (TypeDecl.self_mem_walk outer type) method hmethod) names
          rw [hbytes] at hlength ⊢
          exact ⟨hlength, ((hkind .method rfl).bind (hread.map Source.Member.method)).decides⟩
    have hnested : DecidesEach each segmentSize (nested.map (·.1.toList)) _ :=
      decidesEach_types names (fun rest _ inner hinner =>
          (hkind .type rfl).bind_decides (hinner.map Source.Member.nested)) hnested
        fun inner hinner out ⟨_, _, hrun, hafter⟩ =>
          ih (hafter.trans hgrows) hrun fun entry hentry =>
            haimed entry (TypeDecl.mem_walk_of_nested hinner hentry)
    have hmembers := ((hfields.append hmethods).append hnested).counted
      (by simp only [List.length_append, List.length_map,
        TypeDecl.memberCount]) hcount "type members" (Source.gather type.name type.attrs.bits)
    simp only [List.map_append, List.map_map, Function.comp_def,
      List.forall_mem_append, List.forall_mem_map, implies_true, true_and, List.map_id] at hmembers
    rw [← gather_typeRead]
    exact ⟨_, hbytes, (reads_heapString (hg₁.lasts hsmall) hname).bind_decides
      ((reads_word16 _).bind_decides hmembers)⟩

end Final

end Container

end StackAsm
