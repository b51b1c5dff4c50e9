/-
Methods, written and read back. A method that was written is read as the
same method without lines; the names of its locals and labels are its own
if they are stored, and otherwise those that debug names have for it, or
made-up ones (`ContainerStyle.nameRead`).

Labels count instructions in a program and bytes in a container. Reading
gets the counts back since every label was at an instruction, or at the
end, when it was written. Targets of branches are not stored at all: a
body reads back as it was only if every branch had the place of its label
as target (`MethodBody.Aimed`).
-/
import StackAsm.Container.Write
import StackAsm.Proofs.Container.Code

namespace StackAsm

open Encode Decode Container

-- ==== segments

namespace Segment

/-- A segment kind that may stand at a place is read back there. -/
theorem reads_decode {segment : Segment} {allowed : Segment → Bool}
    (hallowed : allowed segment = true) (place : String) :
    Reads (decode place allowed) [segment.code] segment := by
  intro chunk tail position
  unfold decode
  rw [run_bind_of_ok (reads_byte segment.code chunk tail position)]
  simp only [ofCode?_code, hallowed]
  rfl

theorem reads_expect (place : String) (segment : Segment) :
    Reads (expect place segment) [segment.code] () := by
  have hread : Reads (decode place (· == segment)) [segment.code] segment :=
    @reads_decode segment (· == segment) (beq_self_eq_true segment) place
  exact hread.map fun _ => ()

end Segment

-- ==== names

/-- The name with which something is read that had `name` when it was
written: `known` is what debug names say. -/
def ContainerStyle.nameRead (style : ContainerStyle) (name : String)
    (known : Option String) (fallback : String) : String :=
  if style.stripNames then known.getD fallback else name

/-- The byte offset of a label. -/
def MethodBody.byteOffset (body : MethodBody) (label : Label) : UInt32 :=
  UInt32.ofNat (codeOffset body.instructions (label.offset.elim 0 UInt32.toNat))

/-- Locals as they are read, when `names` are the debug names of their
method. -/
def ContainerStyle.localsRead (style : ContainerStyle)
    (names : Option NameTables) (locals : List Variable) : List Variable :=
  locals.mapIdx fun slot var =>
    { var with
      name := style.nameRead var.name (names.bind (·.locals.get? (UInt16.ofNat slot)))
        (fallbackLocal (UInt16.ofNat slot)) }

/-- A body as it is read. -/
def ContainerStyle.bodyRead (style : ContainerStyle)
    (names : Option NameTables) (body : MethodBody) : MethodBody where
  instructions := body.forgetLines.instructions
  labels := body.labels.map fun label =>
    { label with
      name := style.nameRead label.name (names.bind (·.labels.get? label.index))
        (fallbackLabel (body.byteOffset label)) }
  locals := style.localsRead names body.locals

/-- A method as it is read. -/
def ContainerStyle.methodRead (style : ContainerStyle)
    (names : Option NameTables) (method : Method) : Method :=
  { method with body := style.bodyRead names method.body, line := 0 }

/-- The debug names of a method. -/
def Method.debugNames (method : Method) : MethodNames where
  name := method.name
  locals := ContainerStyle.localNames method.body.locals
  labels := method.body.labels.map fun label =>
    ⟨label.name, label.index, method.body.byteOffset label⟩

/-- Every branch has as target the place of the first label with its
index. -/
def MethodBody.Aimed (body : MethodBody) : Prop :=
  ∀ instruction ∈ body.instructions, ∀ index target,
    Operand.label index target ∈ instruction.operands →
      ∃ label place, body.labelAt? index = some label
        ∧ label.offset = some place ∧ target = some place

-- ==== writing

/-- The references of a method, part by part. -/
theorem Method.forall_references_iff {P : Reference → Prop} {method : Method} :
    (∀ reference ∈ method.references, P reference)
      ↔ P method.result.reference
        ∧ (∀ var ∈ method.params, P var.type.reference)
        ∧ (∀ var ∈ method.body.locals, P var.type.reference)
        ∧ ∀ instruction ∈ method.body.instructions,
          ∀ reference ∈ instruction.references, P reference := by
  unfold references
  simp only [List.map_append, List.forall_mem_append, List.forall_mem_cons,
    List.forall_mem_map, List.forall_mem_flatMap, and_assoc]

/-- The texts of a variable, with its own name if it is `named`. -/
def Variable.textsWith (named : Bool) (var : Variable) : List String :=
  (if named then some var.name else none).toList ++ var.type.reference.texts

abbrev Variable.texts (var : Variable) : List String := var.textsWith true

/-- The texts of a method, without the names of locals and labels if it is
`stripped`. -/
def Method.textsWith (stripped : Bool) (method : Method) : List String :=
  method.name :: method.result.reference.texts
    ++ method.params.flatMap Variable.texts
    ++ method.body.locals.flatMap (Variable.textsWith !stripped)
    ++ method.body.instructions.flatMap Instruction.texts
    ++ method.body.labels.flatMap fun label =>
      (if stripped then none else some label.name).toList

abbrev Method.texts (method : Method) : List String := method.textsWith false

/-- What a method has fits the counts and lengths of the format. -/
structure Method.Sized (method : Method) : Prop where
  params_lt : method.params.length < UInt16.size
  locals_lt : method.body.locals.length < UInt16.size
  labels_lt : method.body.labels.length < UInt16.size
  instructions_lt : method.body.instructions.length < UInt32.size
  code_lt : (method.body.instructions.map Instruction.width).sum < UInt32.size

/-- What the checks make sure of for a method. -/
structure Method.Passes (checks : Checks) (set : InstructionSet) (method : Method) : Prop where
  references : checks.resolved → ∀ reference ∈ method.references, reference.isPending = false
  forms : checks.known → ∀ instruction ∈ method.body.instructions,
    ∃ form, set.get? instruction.opcode = some form ∧ form.operandFault? instruction.operands = none
  labels : checks.known → ∀ label ∈ method.body.labels, ∃ place, label.offset = some place
      ∧ place.toNat ≤ method.body.instructions.length
  sizes : checks.sized → method.Sized

theorem Method.Passes.of_none {set : InstructionSet} {method : Method} :
    method.Passes .none set := ⟨False.elim, False.elim, False.elim, False.elim⟩

namespace ContainerStyle

theorem writes_writeVariable (checks : Checks) (named : Bool) {var : Variable}
    (h : checks.resolved → var.type.reference.isPending = false) :
    (writeVariable named var).Writes (var.textsWith named) checks.Leaves :=
  (writes_heapString? _).bind fun _ _ _ _ =>
    (TypeSpec.writes_encode checks h).map _ _

/-- A label inside the code has a byte offset. -/
theorem exists_labelOffset? {instructions : List Instruction}
    {offsets : List UInt32} {label : Label} {place : UInt32}
    (hoffsets : offsets.map UInt32.toNat = offsetsFrom 0 instructions)
    (hoffset : label.offset = some place) (hplace : place.toNat ≤ instructions.length) :
    ∃ offset, labelOffset? offsets.toArray label = some offset := by
  have hlength : offsets.length = instructions.length + 1 := by
    rw [← List.length_map UInt32.toNat, hoffsets, length_offsetsFrom]
  have hlt : place.toNat < offsets.length := by omega
  unfold labelOffset?
  rw [hoffset, Option.bind_some, List.getElem?_toArray]
  exact ⟨_, List.getElem?_eq_getElem hlt⟩

variable {style : ContainerStyle}

theorem writes_writeLabel (checks : Checks) (full : String) {offsets : Array UInt32} {label : Label}
    (h : checks.known → ∃ offset, labelOffset? offsets label = some offset) :
    (style.writeLabel full offsets label).Writes
      (if style.stripNames then none else some label.name).toList
      checks.Leaves := by
  unfold writeLabel
  cases hfound : labelOffset? offsets label with
  | none =>
    refine mirrors_throw fun hcheck => ?_
    obtain ⟨offset, hoffset⟩ := h hcheck
    rw [hfound] at hoffset
    cases hoffset
  | some => exact (writes_heapString? _).map _ _

theorem writes_writeMethod {checks : Checks} {method : Method}
    (owner : String) (h : method.Passes checks style.set) :
    (style.writeMethod owner method).Writes (method.textsWith style.stripNames) checks.Leaves := by
  have hparts := fun hcheck =>
    Method.forall_references_iff.1 (h.references hcheck)
  have hcode : ∀ instruction ∈ method.body.instructions, instruction.Passes checks style.set :=
    fun instruction hin =>
      ⟨fun hcheck => h.forms hcheck instruction hin,
        fun hcheck => (hparts hcheck).2.2.2 instruction hin⟩
  have hwidth : checks.sized → 0 + (method.body.instructions.map Instruction.width).sum
        < UInt32.size := fun hcheck => by
    rw [Nat.zero_add]
    exact (h.sizes hcheck).code_lt
  unfold Method.textsWith
  simp only [List.cons_append, List.append_assoc]
  refine (writes_heapString method.name).bind fun _ _ _ _ => ?_
  refine (TypeSpec.writes_encode checks fun hcheck =>
    (hparts hcheck).1).bind fun _ _ _ _ => ?_
  refine (mirrors_lift (Checks.failsOnly_count16 (fun hcheck =>
    (h.sizes hcheck).params_lt) _)).bind fun _ _ _ _ => ?_
  refine (mirrors_lift (Checks.failsOnly_count16 (fun hcheck =>
    (h.sizes hcheck).locals_lt) _)).bind fun _ _ _ _ => ?_
  refine (writes_all fun var hvar => writes_writeVariable checks _
    fun hcheck => (hparts hcheck).2.1 var hvar).bind fun _ _ _ _ => ?_
  refine (writes_all fun var hvar => writes_writeVariable checks _
    fun hcheck => (hparts hcheck).2.2.1 var hvar).bind fun _ _ _ _ => ?_
  refine ((style.set.writes_encodeFrom hcode hwidth).of_ok
    style.set.offsets_of_encodeFrom).bind fun code other hcode hother => ?_
  have hsame : other.offsets = code.offsets := (List.map_inj_right fun _ _ => UInt32.toNat_inj.1).1
      (hother.1.trans hcode.1.symm)
  rw [hsame, hcode.2, hother.2]
  refine (mirrors_lift (Checks.failsOnly_count32 (fun hcheck =>
    (h.sizes hcheck).instructions_lt) _)).bind fun _ _ _ _ => ?_
  refine (mirrors_lift (Checks.failsOnly_count32 (fun hcheck =>
    (h.sizes hcheck).code_lt) _)).bind fun _ _ _ _ => ?_
  refine (mirrors_lift (Checks.failsOnly_count16 (fun hcheck =>
    (h.sizes hcheck).labels_lt) _)).bind fun _ _ _ _ => ?_
  refine (writes_mapM fun label hlabel => ?_).map _ _
  refine writes_writeLabel checks _ fun hcheck => ?_
  obtain ⟨_, hoffset, hplace⟩ := h.labels hcheck label hlabel
  exact exists_labelOffset? hcode.1 hoffset hplace

end ContainerStyle

-- ==== variables

namespace Container

variable {style : ContainerStyle} {heap later : StringHeap}
  {out : List UInt8 × MethodNames} {owner : String} {method : Method}

section Final

variable {heap later final : StringHeap} {bytes : List UInt8} {var : Variable}

theorem extends_writeVariable (named : Bool) (var : Variable) :
    (ContainerStyle.writeVariable named var).Extends :=
  (ContainerStyle.writes_writeVariable .none named False.elim).extends

variable (hgrows : later.Grows final) (hsmall : final.size ≤ countLimit)

include hgrows hsmall

/-- A variable is read back with its name, if it is stored. -/
theorem reads_writeVariable {named : Bool}
    (h : (ContainerStyle.writeVariable named var).run heap
      = .ok bytes later) :
    Reads (readVariable final) bytes (if named then some var.name else none, var.type) := by
  obtain ⟨_, mid, hname, h⟩ := run_bind_ok_iff.1 h
  obtain ⟨type, htype, rfl⟩ := run_bind_pure_ok_iff.1 h
  have hmid : mid.Grows final := (var.type.extends_encode mid type _ htype).trans hgrows
  have hsegment := Segment.reads_expect "a method signature" .variable
  refine hsegment.bind ((reads_heapString? (hmid.lasts hsmall) hname).bind ?_)
  exact (TypeSpec.reads_encode (hgrows.lasts hsmall) htype).map fun type =>
    (if named then some var.name else none, type)

theorem reads_param (h : (ContainerStyle.writeVariable true var).run heap
      = .ok bytes later) (method : String) :
    Reads (readParam final method) bytes var := by
  intro chunk tail position
  unfold readParam
  rw [run_bind_of_ok (reads_writeVariable hgrows hsmall h chunk tail position)]
  rfl

theorem reads_local
    (h : (ContainerStyle.writeVariable (!style.stripNames) var).run heap
      = .ok bytes later) (names : Option NameTables) (slot : UInt16) :
    Reads (readLocal final names slot) bytes
      { var with
        name := style.nameRead var.name
          (names.bind (·.locals.get? slot)) (fallbackLocal slot) } := by
  intro chunk tail position
  unfold readLocal
  rw [run_bind_of_ok (reads_writeVariable hgrows hsmall h chunk tail position)]
  unfold ContainerStyle.nameRead
  cases style.stripNames <;> rfl

/-- The parameters of a method are read back in order. -/
theorem reads_params {vars : List Variable} {parts : List (List UInt8)}
    (h : (vars.mapM (ContainerStyle.writeVariable true)).run heap
      = .ok parts later) (method : String) :
    Reads (times vars.length fun _ => readParam final method) parts.flatten vars := by
  have heach : ReadsEach (fun _ => readParam final method) (parts.map id) (vars.map id) :=
    readsEach_of_forall₂ (wrote_of_mapM (extends_writeVariable true) h).2
      fun _ _ _ ⟨_, _, hrun, hafter⟩ =>
        reads_param (hafter.trans hgrows) hsmall hrun method
  rw [List.map_id, List.map_id] at heach
  rw [← heach.length_eq]
  exact heach.times

/-- The locals of a method are read back in order, each with the name of
its slot. -/
theorem reads_locals {vars : List Variable} {parts : List (List UInt8)}
    (h : (vars.mapM (ContainerStyle.writeVariable (!style.stripNames))).run heap = .ok parts later)
    (names : Option NameTables) :
    Reads (times vars.length fun slot =>
        readLocal final names (UInt16.ofNat slot)) parts.flatten
      (style.localsRead names vars) := by
  obtain ⟨-, hparts⟩ := wrote_of_mapM (extends_writeVariable _) h
  have heach : ReadsEach (fun slot => readLocal final names (UInt16.ofNat slot)) (parts.map id)
      (style.localsRead names vars) := readsEach_mapIdx_of_forall₂ hparts fun slot var _ part
      ⟨_, _, hrun, hafter⟩ =>
        reads_local (hafter.trans hgrows) hsmall hrun names _
  rw [List.map_id] at heach
  rw [hparts.length_eq]
  exact heach.times

end Final

-- ==== labels

/-- What a label is written as, when it has a place. -/
theorem writeLabel_ok {full : String} {offsets : Array UInt32}
    {label : Label} {out : List UInt8 × LabelName}
    (h : (style.writeLabel full offsets label).run heap = .ok out later) :
    ∃ place offset name, label.offset = some place
      ∧ offsets[place.toNat]? = some offset
      ∧ (Encode.heapString? (if style.stripNames then none else some label.name)).run heap
        = .ok name later
      ∧ out = (bytes16 label.index ++ (name ++ bytes32 offset),
          ⟨label.name, label.index, offset⟩) := by
  unfold ContainerStyle.writeLabel at h
  split at h
  · exact (run_throw_ok_iff.1 h).elim
  · rename_i offset hoffset
    obtain ⟨place, hplace, hat⟩ := Option.bind_eq_some_iff.1 hoffset
    obtain ⟨name, hname, rfl⟩ := run_bind_pure_ok_iff.1 h
    exact ⟨place, offset, name, hplace, hat, hname, rfl⟩

theorem extends_writeLabel (style : ContainerStyle) (full : String)
    (offsets : Array UInt32) (label : Label) :
    (style.writeLabel full offsets label).Extends :=
  (ContainerStyle.writes_writeLabel .none full False.elim).extends

theorem length_writeLabel {full : String} {offsets : Array UInt32}
    {label : Label} {out : List UInt8 × LabelName}
    (h : (style.writeLabel full offsets label).run heap = .ok out later) :
    out.1.length = labelSize := by
  obtain ⟨_, _, _, -, -, hname, rfl⟩ := writeLabel_ok h
  rw [List.length_append, List.length_append, length_bytes16,
    length_bytes32, length_heapString? hname]
  rfl

/-- The offsets of written code, seen as places of the instructions. -/
structure CodeAt (body : MethodBody) (offsets : List UInt32) : Prop where
  places : offsets.map UInt32.toNat = offsetsFrom 0 body.instructions

namespace CodeAt

variable {full : String}

variable {body : MethodBody} {offsets : List UInt32} (hcode : CodeAt body offsets)

include hcode

/-- An offset that was looked up leads back to its instruction. -/
theorem place_of_offset {place : Nat} {offset : UInt32} (hat : offsets[place]? = some offset) :
    offset.toNat = codeOffset body.instructions place
      ∧ (placeTable (offsetsFrom 0 body.instructions)).get? offset.toNat
        = some place := by
  have hplace : (offsetsFrom 0 body.instructions)[place]? = some offset.toNat := by
    rw [← hcode.places, List.getElem?_map, hat, Option.map_some]
  have hle : place ≤ body.instructions.length := by
    have hlt := (List.getElem?_eq_some_iff.1 hplace).1
    rw [length_offsetsFrom] at hlt
    omega
  refine ⟨?_, placeTable_offsetsFrom hplace⟩
  rw [getElem?_offsetsFrom hle, Option.some.injEq, Nat.zero_add] at hplace
  exact hplace.symm

/-- The offset that is written for a label is the label's byte offset. -/
theorem byteOffset_eq {label : Label} {place offset : UInt32} (hplace : label.offset = some place)
    (hat : offsets[place.toNat]? = some offset) :
    body.byteOffset label = offset := by
  unfold MethodBody.byteOffset
  rw [hplace, Option.elim_some, ← (hcode.place_of_offset hat).1, UInt32.ofNat_toNat]

/-- A label is read back at the instruction it marks. -/
theorem reads_writeLabel {label : Label} {final : StringHeap}
    {out : List UInt8 × LabelName} (hgrows : later.Grows final) (hsmall : final.size ≤ countLimit)
    (h : (style.writeLabel full offsets.toArray label).run heap
      = .ok out later) (names : Option NameTables) (method : String) :
    Reads (readLabel final names method (placeTable (offsetsFrom 0 body.instructions))) out.1
      { label with
        name := style.nameRead label.name (names.bind (·.labels.get? label.index))
          (fallbackLabel (body.byteOffset label)) } := by
  obtain ⟨_, offset, _, hplace, hat, hname, rfl⟩ := writeLabel_ok h
  rw [List.getElem?_toArray] at hat
  rw [hcode.byteOffset_eq hplace hat]
  refine (reads_word16 label.index).bind ((reads_heapString? (hgrows.lasts hsmall) hname).bind ?_)
  intro chunk tail position
  rw [run_bind_of_ok (reads_word32 offset chunk tail position)]
  simp only [(hcode.place_of_offset hat).2, UInt32.ofNat_toNat, hplace]
  unfold ContainerStyle.nameRead
  cases style.stripNames <;> rfl

/-- The labels of a method are read back in order, their count in
front. -/
theorem reads_labels {final : StringHeap}
    {outs : List (List UInt8 × LabelName)} (hgrows : later.Grows final)
    (hsmall : final.size ≤ countLimit)
    (h : (body.labels.mapM (style.writeLabel full offsets.toArray)).run heap
      = .ok outs later) (hfits : body.labels.length < UInt16.size)
    (names : Option NameTables) (method : String) {β : Type} {b : β} {next : List Label → Decode β}
    (hnext : (next (style.bodyRead names body).labels).Reads [] b) :
    Reads (Decode.count16 labelSize "labels" >>= fun count =>
        times count (fun _ => readLabel final names method
          (placeTable (offsetsFrom 0 body.instructions))) >>= next)
      (littleEndian 2 body.labels.length ++ (outs.map (·.1)).flatten) b := by
  rw [← List.append_nil (outs.map (·.1)).flatten]
  exact reads_counted (wrote_of_mapM (extends_writeLabel style full _) h).2
    (counts_count16 hfits labelSize "labels")
    (fun _ _ _ ⟨_, _, hrun, hafter⟩ =>
      ⟨Nat.le_of_eq (length_writeLabel hrun).symm,
        hcode.reads_writeLabel (hafter.trans hgrows) hsmall hrun names method⟩) hnext

/-- Every label of a body that was written has the name, the index and
the offset that go to the debug names. -/
theorem names_of_labels {outs : List (List UInt8 × LabelName)}
    (h : (body.labels.mapM (style.writeLabel full offsets.toArray)).run heap
      = .ok outs later) :
    outs.map (·.2) = body.labels.map fun label =>
      ⟨label.name, label.index, body.byteOffset label⟩ := by
  refine map_eq_of_forall₂ (forall₂_of_run_mapM h) ?_
  rintro _ - _ ⟨_, _, hrun⟩
  obtain ⟨_, _, _, hplace, hat, -, rfl⟩ := writeLabel_ok hrun
  rw [List.getElem?_toArray] at hat
  rw [hcode.byteOffset_eq hplace hat]

end CodeAt

-- ==== branches

/-- Renaming labels changes neither their indices nor their places. -/
theorem labelAt?_bodyRead (style : ContainerStyle)
    (names : Option NameTables) (body : MethodBody) (index : UInt16) :
    ((style.bodyRead names body).labelAt? index).bind Label.offset
      = (body.labelAt? index).bind Label.offset := by
  unfold MethodBody.labelAt? ContainerStyle.bodyRead
  rw [List.find?_map, Option.bind_map]
  rfl

/-- Aiming a stored operand gives back the operand that was written, if it
was aimed. -/
theorem aimOperand_unaimed {body read : MethodBody}
    (hread : ∀ index, (read.labelAt? index).bind Label.offset
      = (body.labelAt? index).bind Label.offset) (haimed : body.Aimed) {instruction : Instruction}
    (hin : instruction ∈ body.instructions) {operand : Operand}
    (hop : operand ∈ instruction.operands) :
    aimOperand read.labelTable operand.unaimed = .ok operand := by
  cases operand with
  | label index target =>
    obtain ⟨label, _, hlabel, hplace, rfl⟩ :=
      haimed instruction hin index target hop
    have hfound := hread index
    rw [hlabel, Option.bind_some, hplace] at hfound
    simp only [Operand.unaimed, aimOperand, MethodBody.get?_labelTable, hfound]
  | _ => rfl

/-- A body whose branches were aimed is read as it was, lines and names
apart. -/
theorem aim_bodyRead {body : MethodBody} (haimed : body.Aimed)
    (style : ContainerStyle) (names : Option NameTables) :
    aim ⟨body.instructions.map Instruction.unaimed, (style.bodyRead names body).labels,
        style.localsRead names body.locals⟩
      = .ok (style.bodyRead names body) := by
  have haim : ∀ instruction ∈ body.instructions,
      aimInstruction (style.bodyRead names body).labelTable instruction.unaimed
        = .ok { instruction with line := 0 } := by
    intro instruction hin
    have hoperands : (instruction.operands.map Operand.unaimed).mapM
          (aimOperand (style.bodyRead names body).labelTable)
        = .ok (instruction.operands.map id) := by
      rw [List.mapM_map]
      exact mapM_ok_of_forall fun _ hop =>
        aimOperand_unaimed (labelAt?_bodyRead style names body) haimed hin hop
    unfold aimInstruction Instruction.unaimed
    simp only [hoperands, List.map_id]
    rfl
  have hinstructions : (body.instructions.map Instruction.unaimed).mapM
        (aimInstruction (style.bodyRead names body).labelTable)
      = .ok (style.bodyRead names body).instructions := by
    rw [List.mapM_map]
    exact mapM_ok_of_forall haim
  show ((body.instructions.map Instruction.unaimed).mapM
      (aimInstruction (style.bodyRead names body).labelTable)
    >>= fun instructions =>
      pure { style.bodyRead names body with instructions }) = _
  rw [hinstructions]
  rfl

-- ==== methods

/-- Code that was written is read back with the places of its
instructions and of its end. -/
theorem reads_readCode {set : InstructionSet} {final : StringHeap}
    {instructions : List Instruction} {code : Code}
    (hgrows : later.Grows final) (hsmall : final.size ≤ countLimit)
    (h : (set.encodeCode instructions).run heap = .ok code later)
    (hcount : instructions.length < UInt32.size) (hsize : code.bytes.length < UInt32.size)
    (names : Table String NameTables) (method : String) :
    Reads (Source.readCode ⟨set, final, names⟩ method)
      (littleEndian 4 instructions.length
        ++ (littleEndian 4 code.bytes.length ++ code.bytes))
      (instructions.map Instruction.unaimed, offsetsFrom 0 instructions) := by
  have hlength : code.bytes.length = (instructions.map Instruction.width).sum :=
    (set.offsets_of_encodeFrom h).2
  have hdecode : set.decodeCode final code.bytes = .ok (placedFrom 0 instructions) := by
    have hrun := set.run_decodeFrom hgrows hsmall h (Nat.le_refl _) "method code"
    unfold InstructionSet.decodeCode
    rw [hrun]
  have hplaced : (placedFrom 0 instructions).length = instructions.length := by
    rw [← List.length_map Prod.snd, map_snd_placedFrom, List.length_map]
  have hoffsets : (placedFrom 0 instructions).map (·.1) ++ [code.bytes.length]
      = offsetsFrom 0 instructions := by
    rw [hlength, ← map_fst_placedFrom, Nat.zero_add]
  refine (reads_littleEndian32 hcount).bind ((reads_littleEndian32 hsize).bind ?_)
  rw [UInt32.toNat_ofNat_of_lt' hsize]
  intro chunk tail position
  rw [run_bind_of_ok (reads_exact code.bytes "method code" chunk tail position)]
  simp only [hdecode, hplaced, UInt32.toNat_ofNat_of_lt' hcount]
  rw [if_neg (by simp), ← hoffsets, ← map_snd_placedFrom 0]
  rfl

/-- The parts a method is written as, each on the heap that the part
before it left. -/
theorem writeMethod_ok (h : (style.writeMethod owner method).run heap = .ok out later) :
    ∃ name result params locals code labels h₁ h₂ h₃ h₄ h₅,
      (Encode.heapString method.name).run heap = .ok name h₁
      ∧ method.result.encode.run h₁ = .ok result h₂
      ∧ (method.params.mapM (ContainerStyle.writeVariable true)).run h₂
        = .ok params h₃
      ∧ (method.body.locals.mapM (ContainerStyle.writeVariable (!style.stripNames))).run h₃
        = .ok locals h₄
      ∧ (style.set.encodeCode method.body.instructions).run h₄
        = .ok code h₅
      ∧ (method.body.labels.mapM (style.writeLabel
          (Text.join owner method.name) code.offsets.toArray)).run h₅
        = .ok labels later
      ∧ method.params.length < UInt16.size
      ∧ method.body.locals.length < UInt16.size
      ∧ method.body.instructions.length < UInt32.size
      ∧ code.bytes.length < UInt32.size
      ∧ method.body.labels.length < UInt16.size
      ∧ out = (Segment.method.code :: (name ++ (bytes16 method.attrs.bits
          ++ (result ++ (littleEndian 2 method.params.length
          ++ (littleEndian 2 method.body.locals.length
          ++ (params.flatten ++ (locals.flatten
          ++ ((littleEndian 4 method.body.instructions.length
            ++ (littleEndian 4 code.bytes.length ++ code.bytes))
          ++ (littleEndian 2 method.body.labels.length
          ++ (labels.map (·.1)).flatten))))))))),
        ⟨method.name, ContainerStyle.localNames method.body.locals,
          labels.map (·.2)⟩) := by
  obtain ⟨name, h₁, hname, h⟩ := run_bind_ok_iff.1 h
  obtain ⟨result, h₂, hresult, h⟩ := run_bind_ok_iff.1 h
  obtain ⟨_, _, hcount, h⟩ := run_bind_ok_iff.1 h
  obtain ⟨hparamFits, rfl, rfl⟩ := run_count16_ok_iff.1 hcount
  obtain ⟨_, _, hcount, h⟩ := run_bind_ok_iff.1 h
  obtain ⟨hlocalFits, rfl, rfl⟩ := run_count16_ok_iff.1 hcount
  obtain ⟨_, h₃, hall, h⟩ := run_bind_ok_iff.1 h
  obtain ⟨params, hparams, rfl⟩ := run_all_ok_iff.1 hall
  obtain ⟨_, h₄, hall, h⟩ := run_bind_ok_iff.1 h
  obtain ⟨locals, hlocals, rfl⟩ := run_all_ok_iff.1 hall
  obtain ⟨code, h₅, hcode, h⟩ := run_bind_ok_iff.1 h
  obtain ⟨_, _, hcount, h⟩ := run_bind_ok_iff.1 h
  obtain ⟨hsizeFits, rfl, rfl⟩ := run_count32_ok_iff.1 hcount
  obtain ⟨_, _, hcount, h⟩ := run_bind_ok_iff.1 h
  obtain ⟨hcodeFits, rfl, rfl⟩ := run_count32_ok_iff.1 hcount
  obtain ⟨_, _, hcount, h⟩ := run_bind_ok_iff.1 h
  obtain ⟨hlabelFits, rfl, rfl⟩ := run_count16_ok_iff.1 hcount
  obtain ⟨labels, hlabels, rfl⟩ := run_bind_pure_ok_iff.1 h
  refine ⟨name, result, params, locals, code, labels, h₁, h₂, h₃, h₄, h₅,
    hname, hresult, hparams, hlocals, hcode, hlabels, hparamFits,
    hlocalFits, hsizeFits, hcodeFits, hlabelFits, ?_⟩
  simp only [List.append_assoc, List.cons_append]

theorem extends_encodeCode (set : InstructionSet) (instructions : List Instruction) :
    (set.encodeCode instructions).Extends := set.extends_encodeFrom 0 instructions

theorem extends_writeMethod (style : ContainerStyle) (owner : String)
    (method : Method) : (style.writeMethod owner method).Extends :=
  (ContainerStyle.writes_writeMethod owner Method.Passes.of_none).extends

/-- The names that a written method leaves to the debug names. -/
theorem names_of_writeMethod (h : (style.writeMethod owner method).run heap = .ok out later) :
    out.2 = method.debugNames := by
  obtain ⟨_, _, _, _, code, _, _, _, _, _, _,
    -, -, -, -, hcode, hlabels, -, -, -, -, -, rfl⟩ := writeMethod_ok h
  have hplaces : CodeAt method.body code.offsets := ⟨(style.set.offsets_of_encodeFrom hcode).1⟩
  rw [hplaces.names_of_labels hlabels]
  rfl

/-- A method that was written is read back, behind its segment kind. -/
theorem reads_writeMethod {final : StringHeap}
    (hsmall : final.size ≤ countLimit) (hgrows : later.Grows final)
    (h : (style.writeMethod owner method).run heap = .ok out later)
    (haimed : method.body.Aimed) (names : Table String NameTables) :
    ∃ rest, out.1 = Segment.method.code :: rest
      ∧ segmentSize ≤ out.1.length
      ∧ Reads (Source.readMethod ⟨style.set, final, names⟩ owner) rest
        (style.methodRead (names.get? (Text.join owner method.name))
          method) := by
  obtain ⟨_, _, _, _, code, _, h₁, h₂, h₃, h₄, h₅,
    hname, hresult, hparams, hlocals, hcode, hlabels, hparamFits,
    hlocalFits, hsizeFits, hcodeFits, hlabelFits, rfl⟩ := writeMethod_ok h
  have hg₅ : h₅.Grows final := (wrote_of_mapM (extends_writeLabel style _ _) hlabels).1.trans hgrows
  have hg₄ : h₄.Grows final := (extends_encodeCode _ _ _ _ _ hcode).trans hg₅
  have hg₃ : h₃.Grows final := (wrote_of_mapM (extends_writeVariable _) hlocals).1.trans hg₄
  have hg₂ : h₂.Grows final := (wrote_of_mapM (extends_writeVariable true) hparams).1.trans hg₃
  have hg₁ : h₁.Grows final := (TypeSpec.extends_encode _ _ _ _ hresult).trans hg₂
  have hplaces : CodeAt method.body code.offsets := ⟨(style.set.offsets_of_encodeFrom hcode).1⟩
  refine ⟨_, rfl, ?_, ?_⟩
  · simp only [List.length_cons, List.length_append, length_heapString hname, length_bytes16,
      TypeSpec.length_encode hresult, segmentSize]
    omega
  · refine (reads_heapString (hg₁.lasts hsmall) hname).bind
      ((reads_word16 method.attrs.bits).bind
      ((TypeSpec.reads_encode (hg₂.lasts hsmall) hresult).bind
      ((reads_littleEndian16 hparamFits).bind ((reads_littleEndian16 hlocalFits).bind ?_))))
    rw [UInt16.toNat_ofNat_of_lt' hparamFits, UInt16.toNat_ofNat_of_lt' hlocalFits]
    refine (reads_params hg₃ hsmall hparams _).bind
      ((reads_locals hg₄ hsmall hlocals _).bind
      ((reads_readCode hg₅ hsmall hcode hsizeFits hcodeFits names _).bind ?_))
    refine hplaces.reads_labels hgrows hsmall hlabels hlabelFits _ _ ?_
    have haim := aim_bodyRead haimed style (names.get? (Text.join owner method.name))
    simp only [haim]
    exact reads_pure _

end Container

end StackAsm
