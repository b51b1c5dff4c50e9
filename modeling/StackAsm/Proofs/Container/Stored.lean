/-
The parts of a method as they are read from a file. What is read need
not have been written by anyone, but it is checked: operands suit the
form of their opcode, references are resolved, code is as long as it
says, labels lie in the code, and branches go to labels. Each of these is
a fact about the bytes that were taken and the value that came of them
(`Operand.yields_decode`, `StoredCode`, `yields_readLabel`), and aiming
the branches changes nothing but their targets.

Every text has an index of four bytes somewhere among the bytes it was
read from. It comes from the heap of the file or was made up, so it can
be stored again (`Holds`).
-/
import Mathlib.Data.Nat.Digits.Defs
import StackAsm.Proofs.Container.Declarations
import StackAsm.Proofs.Container.Sizes

namespace StackAsm

open Decode

-- ==== texts

/-- Bytes with room for the indices of some texts, which can all be
stored. -/
structure Holds (bytes : List UInt8) (texts : List String) : Prop where
  room : 4 * texts.length ≤ bytes.length
  storable : ∀ text ∈ texts, Text.Storable text

namespace Holds

variable {α : Type} {bytes more : List UInt8} {texts others : List String}

theorem nil (bytes : List UInt8) : Holds bytes [] := ⟨Nat.zero_le _, nofun⟩

theorem one {text : String} (hbytes : 4 ≤ bytes.length)
    (htext : Text.Storable text) : Holds bytes [text] := by
  refine ⟨hbytes, fun _ hother => ?_⟩
  rw [List.mem_singleton.1 hother]
  exact htext

theorem append (h : Holds bytes texts) (h' : Holds more others) :
    Holds (bytes ++ more) (texts ++ others) := by
  refine ⟨?_, List.forall_mem_append.2 ⟨h.storable, h'.storable⟩⟩
  have hroom := h.room
  have hroom' := h'.room
  rw [List.length_append, List.length_append]
  omega

theorem left (h : Holds bytes texts) (more : List UInt8) : Holds (bytes ++ more) texts := by
  have hboth := h.append (Holds.nil more)
  rwa [List.append_nil] at hboth

theorem right (h : Holds more texts) (bytes : List UInt8) :
    Holds (bytes ++ more) texts := (Holds.nil bytes).append h

theorem perm (h : Holds bytes texts) (hperm : texts.Perm others) : Holds bytes others := by
  refine ⟨hperm.length_eq ▸ h.room, fun text htext => ?_⟩
  exact h.storable text (hperm.mem_iff.2 htext)

/-- The texts of parts are held by the parts together. -/
theorem of_inParts {G : List UInt8 → α → Prop} {view : α → List String}
    {values : List α} (himp : ∀ part value, G part value →
      Holds part (view value)) (h : InParts G bytes values) :
    Holds bytes (values.flatMap view) := by
  refine InParts.induction (motive := fun bytes values => Holds bytes (values.flatMap view))
    (Holds.nil []) ?_ h
  intro part value bytes values hpart ih
  exact (himp part value hpart).append ih

end Holds

/-- A text of some characters is at most four times as long in bytes. -/
theorem Text.utf8ByteSize_ofList_le (chars : List Char) :
    (String.ofList chars).utf8ByteSize ≤ 4 * chars.length := by
  induction chars with
  | nil => exact Nat.le_refl _
  | cons c =>
    have hc := c.utf8Size_le_four
    rw [String.ofList_cons, String.utf8ByteSize_append,
      String.utf8ByteSize_singleton, List.length_cons]
    omega

/-- The names that are made up for locals are short. -/
theorem Container.storable_fallbackLocal (slot : UInt16) : Text.Storable (fallbackLocal slot) := by
  have hdigits : (Nat.toDigits 10 slot.toNat).length ≤ 5 :=
    Nat.toDigits_length 10 slot.toNat 5 (by decide) (Nat.lt_of_lt_of_le slot.toNat_lt (by decide))
  have hsize := Text.utf8ByteSize_ofList_le (Nat.toDigits 10 slot.toNat)
  have hfront : "loc".utf8ByteSize = 3 := rfl
  show ("loc" ++ String.ofList (Nat.toDigits 10 slot.toNat)).utf8ByteSize < 4294967296
  rw [String.utf8ByteSize_append]
  omega

/-- So are those for labels. -/
theorem Container.storable_fallbackLabel (offset : UInt32) :
    Text.Storable (fallbackLabel offset) := by
  have hdigits : (Nat.toDigits 16 offset.toNat).length ≤ 8 :=
    Nat.toDigits_length 16 offset.toNat 8 (by decide)
      (Nat.lt_of_lt_of_le offset.toNat_lt (by decide))
  have hsize := Text.utf8ByteSize_ofList_le ((Nat.toDigits 16 offset.toNat).map Char.toUpper)
  rw [List.length_map] at hsize
  have hzeros := Text.utf8ByteSize_ofList_le
    (List.replicate (4 - (Text.hexUpper offset.toNat).length) '0')
  rw [List.length_replicate] at hzeros
  have hfront : "lbl_".utf8ByteSize = 4 := rfl
  show ("lbl_" ++ (String.ofList (List.replicate _ '0') ++ String.ofList
    ((Nat.toDigits 16 offset.toNat).map Char.toUpper))).utf8ByteSize < 4294967296
  rw [String.utf8ByteSize_append, String.utf8ByteSize_append]
  omega

-- ==== operands

section Operands

variable {heap : StringHeap} (hheap : heap.Storable)

/-- A tag of one byte and what it announces. -/
theorem length_tagged {tag : List UInt8} (htag : tag.length = 1)
    {bytes : List UInt8} {n : Nat} (hbytes : bytes.length = n) :
    (tag ++ bytes).length = 1 + n := by
  rw [List.length_append, htag, hbytes]

theorem SymbolKind.yields_decode : SymbolKind.decode.Yields fun bytes _ => bytes.length = 1 := by
  refine yields_byte.check fun _ => ?_
  split
  · exact yields_pure rfl
  · exact yields_invalid _

theorem VariableKind.yields_decode :
    VariableKind.decode.Yields fun bytes _ => bytes.length = 1 := by
  refine yields_byte.check fun _ => ?_
  split
  · exact yields_pure rfl
  · exact yields_pure rfl
  · exact yields_invalid _

theorem Register.yields_decode : Register.decode.Yields fun bytes _ => bytes.length = 1 := by
  refine yields_byte.check fun _ => ?_
  split
  · exact yields_pure rfl
  · exact yields_invalid _

theorem Flag.yields_decode : Flag.decode.Yields fun bytes _ => bytes.length = 1 := by
  refine yields_byte.check fun _ => ?_
  split
  · exact yields_pure rfl
  · exact yields_invalid _

theorem Constant.yields_decodeChar :
    Constant.decodeChar.Yields fun bytes _ => bytes.length = 4 := by
  refine yields_word32.check fun _ => ?_
  split
  · exact yields_pure rfl
  · exact yields_invalid _

include hheap

theorem Symbol.yields_decode : (Symbol.decode heap).Yields fun bytes symbol =>
      bytes.length = 5 ∧ Text.Storable symbol.name := by
  refine SymbolKind.yields_decode.bind fun _ _ _ => ?_
  refine (yields_heapString heap).map ?_
  rintro _ name ⟨_, hname⟩
  refine ⟨?_, hheap name hname⟩
  rw [List.length_append]
  omega

theorem TypeSpec.yields_decode : (TypeSpec.decode heap).Yields fun bytes spec =>
      bytes.length = 6 ∧ spec.reference.isPending = false ∧ Holds bytes spec.reference.texts := by
  refine (Symbol.yields_decode hheap).bind ?_
  rintro _ _ ⟨_, hname⟩
  refine yields_byte.map fun back _ _ => ⟨?_, rfl, ?_⟩
  · rw [List.length_append]
    omega
  · exact (Holds.one (by omega) hname).left back

theorem Constant.yields_decode : (Constant.decode heap).Yields fun bytes value =>
      bytes.length = value.width ∧ Holds bytes value.texts := by
  refine yields_byte.bind fun _ front hfront => ?_
  split
  · exact yields_word32.map fun _ _ h =>
      ⟨length_tagged hfront h, .nil _⟩
  · exact yields_word64.map fun _ _ h =>
      ⟨length_tagged hfront h, .nil _⟩
  · exact yields_word64.map fun _ _ h =>
      ⟨length_tagged hfront h, .nil _⟩
  · exact yields_byte.map fun _ _ h =>
      ⟨length_tagged hfront h, .nil _⟩
  · exact yields_decodeChar.map fun _ _ h =>
      ⟨length_tagged hfront h, .nil _⟩
  · refine (yields_heapString heap).map ?_
    rintro _ text ⟨hback, htext⟩
    exact ⟨length_tagged hfront hback,
      (Holds.one (Nat.le_of_eq hback.symm) (hheap text htext)).right front⟩
  · exact yields_pure ⟨length_tagged hfront rfl, .nil _⟩
  · exact yields_invalid _

/-- An operand that was read takes its width, holds no open reference, and
its texts can be stored. -/
theorem Operand.yields_decode : (Operand.decode heap).Yields fun bytes operand =>
      bytes.length = operand.width ∧ (∀ reference ∈ operand.reference?, reference.isPending = false)
        ∧ Holds bytes operand.texts := by
  refine yields_byte.bind fun _ front hfront => ?_
  split
  · refine (Constant.yields_decode hheap).map ?_
    rintro back _ ⟨hback, hholds⟩
    exact ⟨length_tagged hfront hback, fun _ => nofun, hholds.right front⟩
  · refine (TypeSpec.yields_decode hheap).map ?_
    rintro back _ ⟨hback, hresolved, hholds⟩
    refine ⟨length_tagged hfront hback, ?_, hholds.right front⟩
    rintro reference ⟨⟩
    exact hresolved
  · exact yields_pure ⟨length_tagged hfront rfl, fun _ => nofun, .nil _⟩
  · refine (Symbol.yields_decode hheap).map ?_
    rintro back symbol ⟨hback, hname⟩
    refine ⟨length_tagged hfront hback, ?_, (Holds.one (by omega) hname).right front⟩
    rintro reference ⟨⟩
    rfl
  · refine (Symbol.yields_decode hheap).map ?_
    rintro back symbol ⟨hback, hname⟩
    refine ⟨length_tagged hfront hback, ?_, (Holds.one (by omega) hname).right front⟩
    rintro reference ⟨⟩
    rfl
  · exact Register.yields_decode.map fun _ _ h =>
      ⟨length_tagged hfront h, fun _ => nofun, .nil _⟩
  · exact Flag.yields_decode.map fun _ _ h =>
      ⟨length_tagged hfront h, fun _ => nofun, .nil _⟩
  · exact yields_word16.map fun _ _ h =>
      ⟨length_tagged hfront h, fun _ => nofun, .nil _⟩
  · refine VariableKind.yields_decode.bind fun _ _ _ => ?_
    refine yields_word16.map fun back _ hback => ⟨?_, fun _ => nofun, .nil _⟩
    refine length_tagged hfront (n := 3) ?_
    rw [List.length_append]
    omega
  · refine (yields_heapString heap).map ?_
    rintro back name ⟨hback, hname⟩
    exact ⟨length_tagged hfront hback, fun _ => nofun,
      (Holds.one (Nat.le_of_eq hback.symm) (hheap name hname)).right front⟩
  · exact yields_throw _

end Operands

-- ==== code

namespace Instruction

/-- An instruction as it is read from its bytes. -/
structure Stored (set : InstructionSet) (bytes : List UInt8)
    (instruction : Instruction) : Prop where
  writable : instruction.Writable set
  line : instruction.line = 0
  width : bytes.length = instruction.width
  holds : Holds bytes instruction.texts

theorem width_unaimed (instruction : Instruction) :
    instruction.unaimed.width = instruction.width := by
  have hop : ∀ operand : Operand, operand.unaimed.width = operand.width := by
    intro operand
    cases operand <;> rfl
  unfold width unaimed
  simp only [List.map_map, Function.comp_def, hop]

theorem texts_unaimed (instruction : Instruction) :
    instruction.unaimed.texts = instruction.texts := by
  have hop : ∀ operand : Operand, operand.unaimed.texts = operand.texts := by
    intro operand
    cases operand <;> rfl
  unfold texts unaimed
  simp only [List.flatMap_map, hop]

end Instruction

/-- Operands that were read suit their form. -/
theorem Form.yields_decode (form : Form) {heap : StringHeap} (hheap : heap.Storable) :
    (form.decode heap).Yields fun bytes operands =>
      form.Takes operands
        ∧ (∀ operand ∈ operands, ∀ reference ∈ operand.reference?, reference.isPending = false)
        ∧ bytes.length = 1 + (operands.map Operand.width).sum
        ∧ Holds bytes (operands.flatMap Operand.texts) := by
  refine yields_byte.bind fun _ front hfront => ?_
  simp only
  split
  · exact yields_of_fails fun _ _ _ h => nomatch h
  refine (yields_times (fun _ => Operand.yields_decode hheap) _).bind ?_
  rintro _ _ ⟨hparts, -⟩
  split
  · exact yields_throw _
  · rename_i htakes
    refine yields_pure ⟨operandFault?_eq_none.1 htakes, ?_, ?_, ?_⟩
    · exact hparts.forall_mem fun _ _ h => h.2.1
    · rw [List.append_nil, List.length_append, hfront, hparts.length_eq fun _ _ h => h.1]
    · rw [List.append_nil]
      exact (Holds.of_inParts (fun _ _ h => h.2.2) hparts).right front

namespace InstructionSet

variable {set : InstructionSet}

section Heap

variable {heap : StringHeap} (hheap : heap.Storable)

include hheap

theorem yields_decodeInstruction :
    (set.decodeInstruction heap).Yields (Instruction.Stored set) := by
  refine yields_decodeOpcode.bind fun opcode front hfront => ?_
  split
  · exact yields_throw _
  rename_i form hform
  obtain ⟨hmem, hopcode⟩ := get?_sound hform
  refine (form.yields_decode hheap).map ?_
  rintro back operands ⟨htakes, hresolved, hback, hholds⟩
  refine ⟨⟨⟨form, hmem, hopcode, htakes⟩, ?_⟩, rfl, ?_, hholds.right front⟩
  · intro reference href
    obtain ⟨operand, hop, href⟩ := List.mem_filterMap.1 href
    exact hresolved operand hop reference href
  · show (front ++ back).length = opcode.bytes.length + 1 + (operands.map Operand.width).sum
    rw [List.length_append, hfront, hback, Nat.add_assoc]

/-- Where there is fuel for every byte, all bytes are read. -/
theorem inParts_of_decodeFrom {fuel : Nat} {input later : ByteInput}
    {placed : List (Nat × Instruction)}
    (h : (set.decodeFrom heap fuel).run input = .ok placed later)
    (hfuel : input.rest.length ≤ fuel) :
    InParts (Instruction.Stored set) input.rest (placed.map (·.2)) := by
  induction fuel generalizing input placed later with
  | zero =>
    obtain ⟨rfl, rfl⟩ := run_pure_ok_iff.1 h
    rw [List.eq_nil_of_length_eq_zero (Nat.le_zero.1 hfuel)]
    exact .nil
  | succ fuel ih =>
    unfold decodeFrom at h
    rw [run_get_bind] at h
    split at h
    · rename_i hempty
      obtain ⟨rfl, rfl⟩ := run_pure_ok_iff.1 h
      rw [List.isEmpty_iff.1 hempty]
      exact .nil
    · obtain ⟨instruction, middle, hfirst, h⟩ := run_bind_ok_iff.1 h
      obtain ⟨_, hrest, rfl⟩ := run_bind_pure_ok_iff.1 h
      obtain ⟨_, hpart, hstored⟩ := (yields_decodeInstruction hheap).took hfirst
      have hpos := instruction.width_pos
      have hwidth := hstored.width
      have hshorter : middle.rest.length ≤ fuel := by
        rw [hpart, List.length_append] at hfuel
        omega
      rw [hpart]
      exact (ih hrest hshorter).cons hstored

theorem inParts_of_decodeCode {code : List UInt8} {placed : List (Nat × Instruction)}
    (h : set.decodeCode heap code = .ok placed) :
    InParts (Instruction.Stored set) code (placed.map (·.2)) := by
  unfold decodeCode at h
  split at h
  · rename_i instructions later hrun
    cases h
    exact inParts_of_decodeFrom hheap hrun (Nat.le_refl _)
  · cases h

end Heap

end InstructionSet

-- ==== parts of methods

theorem Segment.yields_decode (place : String) (allowed : Segment → Bool) :
    (Segment.decode place allowed).Yields fun bytes _ =>
      bytes.length = 1 := by
  refine yields_byte.check fun _ => ?_
  split
  · exact yields_throw _
  · split
    · exact yields_pure rfl
    · exact yields_invalid _

theorem Segment.yields_expect (place : String) (segment : Segment) :
    (Segment.expect place segment).Yields fun bytes _ =>
      bytes.length = 1 :=
  (Segment.yields_decode place (· == segment)).map fun _ _ h => h

namespace Container

theorem yields_expectNoChildren (segment : String) :
    (expectNoChildren segment).Yields fun bytes _ => bytes.length = 4 := by
  refine yields_word32.check fun _ => ?_
  split
  · exact yields_invalid _
  · exact yields_pure rfl

/-- The place of an offset is that of an instruction, or of the end. -/
theorem lt_of_get?_placeTable {offsets : List Nat} {offset place : Nat}
    (h : (placeTable offsets).get? offset = some place) :
    place < offsets.length := by
  unfold placeTable at h
  rw [Table.get?_ofList, List.lookup_eq_some_iff] at h
  obtain ⟨_, _, hsplit, -⟩ := h
  have hmem : (offset, place) ∈ offsets.zipIdx := by
    rw [hsplit]
    exact List.mem_append_right _ (.head _)
  exact List.snd_lt_of_mem_zipIdx hmem

section Variables

variable {heap : StringHeap} (hheap : heap.Storable)

include hheap

/-- A variable takes so many bytes that whatever name it gets has room in
them. -/
theorem yields_readVariable : (readVariable heap).Yields fun bytes var =>
      bytes.length = variableSize ∧ var.2.reference.isPending = false
        ∧ (∀ name ∈ var.1, Text.Storable name) ∧ ∀ name, Text.Storable name →
          Holds bytes (name :: var.2.reference.texts) := by
  refine (Segment.yields_expect _ _).bind fun _ front _ => ?_
  refine (yields_heapString? heap).bind ?_
  rintro _ _ ⟨hmiddle, hname⟩
  refine (TypeSpec.yields_decode hheap).map ?_
  rintro _ _ ⟨_, hresolved, hholds⟩
  refine ⟨?_, hresolved, fun text htext => hheap text (hname text htext), fun text htext => ?_⟩
  · simp only [List.length_append, variableSize]
    omega
  · exact ((Holds.one (Nat.le_of_eq hmiddle.symm) htext).append hholds).right front

theorem yields_readParam (method : String) : (readParam heap method).Yields fun bytes var =>
      bytes.length = variableSize ∧ var.type.reference.isPending = false
        ∧ Holds bytes var.texts := by
  refine (yields_readVariable hheap).bind ?_
  rintro ⟨name, _⟩ _ ⟨hfront, hresolved, hname, hholds⟩
  cases name with
  | none => exact yields_invalid _
  | some name =>
    refine yields_pure ?_
    rw [List.append_nil]
    exact ⟨hfront, hresolved, hholds name (hname name rfl)⟩

theorem yields_readLocal (names : Option NameTables) (slot : UInt16) :
    (readLocal heap names slot).Yields fun bytes var =>
      bytes.length = variableSize ∧ var.type.reference.isPending = false
        ∧ (names = none → Holds bytes var.texts) := by
  refine (yields_readVariable hheap).bind ?_
  rintro ⟨name, _⟩ _ ⟨hfront, hresolved, hname, hholds⟩
  refine yields_pure ?_
  rw [List.append_nil]
  refine ⟨hfront, hresolved, ?_⟩
  rintro rfl
  cases name with
  | none => exact hholds _ (storable_fallbackLocal slot)
  | some name => exact hholds name (hname name rfl)

/-- A label that was read marks an instruction, or the end. -/
theorem yields_readLabel (names : Option NameTables) (method : String)
    {offsets : List Nat} (hoffsets : offsets.length ≤ UInt32.size) :
    (readLabel heap names method (placeTable offsets)).Yields fun bytes label =>
        bytes.length = labelSize
          ∧ (∃ place, label.offset = some place ∧ place.toNat < offsets.length)
          ∧ (names = none → Holds bytes [label.name]) := by
  refine yields_word16.bind fun _ front _ => ?_
  refine (yields_heapString? heap).bind ?_
  rintro name middle ⟨_, hname⟩
  refine yields_word32.bind fun offset back _ => ?_
  split
  · exact yields_throw _
  rename_i place hplace
  have hlt := lt_of_get?_placeTable hplace
  have htoNat : (UInt32.ofNat place).toNat = place :=
    UInt32.toNat_ofNat_of_lt' (Nat.lt_of_lt_of_le hlt hoffsets)
  have hlength : (front ++ (middle ++ (back ++ []))).length = labelSize := by
    simp only [List.length_append, List.length_nil, labelSize]
    omega
  refine yields_pure ⟨hlength, ⟨_, rfl, ?_⟩, ?_⟩
  · rwa [htoNat]
  · rintro rfl
    have hroom : 4 ≤ (front ++ (middle ++ (back ++ []))).length := by
      rw [hlength]
      decide
    refine Holds.one hroom ?_
    cases name with
    | none => exact storable_fallbackLabel offset
    | some name => exact hheap name (hname name rfl)

end Variables

-- Aiming changes the targets of branches and nothing else.
section Aiming

variable {body aimed : MethodBody} {labels : Table UInt16 Label}

theorem unaimed_of_aimOperand {operand result : Operand}
    (h : aimOperand labels operand = .ok result) :
    result.unaimed = operand.unaimed := by
  cases operand with
  | label =>
    unfold aimOperand at h
    simp only at h
    split at h
    · cases h
      rfl
    · cases h
  | _ =>
    cases h
    rfl

/-- A label that was aimed has the target its index leads to. -/
theorem target_of_aimOperand {operand : Operand} {index : UInt16} {target : Option UInt32}
    (h : aimOperand labels operand = .ok (.label index target)) :
    ∃ label place, labels.get? index = some label
      ∧ label.offset = some place ∧ target = some place := by
  cases operand with
  | label =>
    unfold aimOperand at h
    simp only at h
    split at h
    · rename_i place hplace
      cases h
      obtain ⟨label, hlabel, hoffset⟩ := Option.bind_eq_some_iff.1 hplace
      exact ⟨label, place, hlabel, hoffset, rfl⟩
    · cases h
  | _ => cases h

theorem aimInstruction_ok {instruction result : Instruction}
    (h : aimInstruction labels instruction = .ok result) :
    ∃ operands, List.Forall₂ (aimOperand labels · = .ok ·) instruction.operands operands
      ∧ result = { instruction with operands } := by
  obtain ⟨operands, hoperands, h⟩ := bind_ok_iff.1 h
  rw [pure_ok_iff] at h
  exact ⟨operands, forall₂_of_mapM_ok hoperands, h.symm⟩

theorem aim_ok (h : aim body = .ok aimed) :
    ∃ code, List.Forall₂ (aimInstruction body.labelTable · = .ok ·) body.instructions code
      ∧ aimed = { body with instructions := code } := by
  obtain ⟨code, hcode, h⟩ := bind_ok_iff.1 h
  rw [pure_ok_iff] at h
  exact ⟨code, forall₂_of_mapM_ok hcode, h.symm⟩

theorem unaimed_of_aim (h : aim body = .ok aimed) :
    aimed.instructions.map Instruction.unaimed = body.instructions.map Instruction.unaimed := by
  obtain ⟨_, hcode, rfl⟩ := aim_ok h
  refine map_eq_of_forall₂ hcode fun _ _ _ hresult => ?_
  obtain ⟨_, hoperands, rfl⟩ := aimInstruction_ok hresult
  unfold Instruction.unaimed
  rw [map_eq_of_forall₂ hoperands fun _ _ _ => unaimed_of_aimOperand]

theorem lines_of_aim (h : aim body = .ok aimed) :
    aimed.instructions.map (·.line) = body.instructions.map (·.line) := by
  obtain ⟨_, hcode, rfl⟩ := aim_ok h
  refine map_eq_of_forall₂ hcode fun _ _ _ hresult => ?_
  obtain ⟨_, _, rfl⟩ := aimInstruction_ok hresult
  rfl

theorem aimed_of_aim (h : aim body = .ok aimed) : aimed.Aimed := by
  obtain ⟨_, hcode, rfl⟩ := aim_ok h
  intro instruction hin index target hop
  obtain ⟨_, -, hstored⟩ := (exists_of_forall₂ hcode).2 instruction hin
  obtain ⟨_, hoperands, rfl⟩ := aimInstruction_ok hstored
  obtain ⟨_, -, haim⟩ := (exists_of_forall₂ hoperands).2 _ hop
  obtain ⟨label, place, hlabel, hrest⟩ := target_of_aimOperand haim
  rw [MethodBody.get?_labelTable] at hlabel
  exact ⟨label, place, hlabel, hrest⟩

end Aiming

/-- Code as it is read from a file. -/
structure StoredCode (set : InstructionSet) (bytes : List UInt8)
    (instructions : List Instruction) (offsets : List Nat) : Prop where
  writable : ∀ instruction ∈ instructions, instruction.Writable set
  lines : ∀ instruction ∈ instructions, instruction.line = 0
  instructions_lt : instructions.length < UInt32.size
  code_lt : (instructions.map Instruction.width).sum < UInt32.size
  offsets_eq : offsets.length = instructions.length + 1
  holds : Holds bytes (instructions.flatMap Instruction.texts)

theorem Source.yields_readCode (source : Source) (hheap : source.heap.Storable) (method : String) :
    (source.readCode method).Yields fun bytes code =>
      StoredCode source.set bytes code.1 code.2 := by
  refine yields_word32.bind fun declared front _ => ?_
  refine yields_word32.bind fun size next _ => ?_
  refine (yields_exact size.toNat_lt _).bind ?_
  rintro _ _ ⟨rfl, hlength⟩
  split
  · exact yields_throw _
  rename_i placed hplaced
  split
  · exact yields_of_fails fun _ _ _ h => nomatch h
  rename_i hcount
  rw [Decidable.not_not] at hcount
  have hparts := InstructionSet.inParts_of_decodeCode hheap hplaced
  refine yields_pure ⟨?_, ?_, ?_, ?_, ?_, ?_⟩
  · exact hparts.forall_mem fun _ _ h => h.writable
  · exact hparts.forall_mem fun _ _ h => h.line
  · rw [List.length_map, hcount]
    exact declared.toNat_lt
  · rw [← hparts.length_eq fun _ _ h => h.width, hlength]
    exact size.toNat_lt
  · rw [List.length_append, List.length_map, List.length_map]
    rfl
  · rw [List.append_nil]
    exact ((Holds.of_inParts (fun _ _ h => h.holds) hparts).right next).right front

end Container

end StackAsm
