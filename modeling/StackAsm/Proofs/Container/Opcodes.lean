/-
Opcodes, one behind the other. A table is checked form by form, each
against the parents and the forms before it, and the checks come to what a
reader needs: opcodes are different, one of a single byte is no parent,
and one of two bytes starts with a parent (`TableFault.find?_eq_none_iff`).
So the first byte says how long an opcode is, and opcodes of the set are
read back in one way only (`InstructionSet.decodesTo_iff`).
-/
import StackAsm.Container.Code
import StackAsm.Proofs.Bytes.Yields
import StackAsm.Proofs.Program.Tree

namespace StackAsm

open Decode

-- ==== tables

/-- A table whose opcodes are told apart by their first bytes, and whose
operands can be counted in a byte. -/
structure Unambiguous (parents : List UInt8) (forms : List Form) : Prop where
  parents_nodup : parents.Nodup
  arity_le : ∀ form ∈ forms, form.arity ≤ 255
  single : ∀ form ∈ forms, ∀ code, form.opcode = .single code → code ∉ parents
  extended : ∀ form ∈ forms, ∀ parent code, form.opcode = .extended parent code → parent ∈ parents
  opcodes_nodup : (forms.map (·.opcode)).Nodup

namespace TableFault

variable {parents : List UInt8} {forms : List Form}

theorem ofParents?_eq_none_iff {seen : List UInt8} :
    ofParents? seen parents = none ↔ parents.Nodup ∧ ∀ code ∈ parents, code ∉ seen := by
  induction parents generalizing seen with
  | nil => simp [ofParents?]
  | cons code rest ih =>
    rw [ofParents?, List.nodup_cons, List.forall_mem_cons]
    by_cases hseen : code ∈ seen
    · simp [hseen]
    · rw [if_neg (by simpa using hseen), ih]
      grind

theorem ofOpcode?_eq_none_iff {form : Form} :
    ofOpcode? parents form = none
      ↔ (∀ code, form.opcode = .single code → code ∉ parents)
        ∧ ∀ parent code, form.opcode = .extended parent code →
          parent ∈ parents := by
  unfold ofOpcode?
  cases form.opcode <;> simp

/-- The forms of a table are in order exactly if each is by itself and no
opcode is repeated. -/
theorem ofForms?_eq_none_iff {seen : List Form} :
    ofForms? parents seen forms = none
      ↔ (∀ form ∈ forms, form.arity ≤ 255
          ∧ ofOpcode? parents form = none)
        ∧ (forms.map (·.opcode)).Nodup
        ∧ ∀ form ∈ forms, form.opcode ∉ seen.map (·.opcode) := by
  induction forms generalizing seen with
  | nil => simp [ofForms?]
  | cons form rest ih =>
    have hform : ofForm? parents seen form = none
        ↔ (form.arity ≤ 255 ∧ ofOpcode? parents form = none)
          ∧ form.opcode ∉ seen.map (·.opcode) := by
      unfold ofForm?
      split
      · simp only [reduceCtorEq, false_iff]
        omega
      · rw [Option.or_eq_none_iff, Option.map_eq_none_iff, List.find?_eq_none]
        grind
    rw [ofForms?, Option.or_eq_none_iff, hform, ih]
    grind

/-- A table has no fault exactly if it is unambiguous. -/
theorem find?_eq_none_iff : find? parents forms = none ↔ Unambiguous parents forms := by
  rw [find?, Option.or_eq_none_iff, ofParents?_eq_none_iff, ofForms?_eq_none_iff]
  simp only [ofOpcode?_eq_none_iff]
  constructor
  · rintro ⟨⟨hparents, -⟩, hforms, hnodup, -⟩
    exact ⟨hparents, fun form h => (hforms form h).1,
      fun form h => (hforms form h).2.1, fun form h => (hforms form h).2.2, hnodup⟩
  · rintro ⟨hparents, harity, hsingle, hextended, hnodup⟩
    exact ⟨⟨hparents, fun _ _ => List.not_mem_nil⟩,
      fun form h => ⟨harity form h, hsingle form h, hextended form h⟩,
      hnodup, fun _ _ => List.not_mem_nil⟩

end TableFault

-- ==== instruction sets

theorem Opcode.bytes_ne_nil (opcode : Opcode) : opcode.bytes ≠ [] := by
  cases opcode <;> exact List.cons_ne_nil _ _

namespace InstructionSet

variable {set : InstructionSet}

theorem unambiguous (set : InstructionSet) :
    Unambiguous set.parents set.forms := TableFault.find?_eq_none_iff.1 set.sound

theorem build_ok {parents : List UInt8} {forms : List Form} (h : build parents forms = .ok set) :
    set.parents = parents ∧ set.forms = forms := by
  unfold build at h
  split at h
  · cases h
    exact ⟨rfl, rfl⟩
  · cases h

/-- The form found for an opcode is one of the set and has that
opcode. -/
theorem get?_sound {opcode : Opcode} {form : Form} (h : set.get? opcode = some form) :
    form ∈ set.forms ∧ form.opcode = opcode :=
  ⟨List.mem_of_find?_eq_some h, by simpa using List.find?_some h⟩

/-- A form of the set is found by its opcode. -/
theorem get?_of_mem (set : InstructionSet) {form : Form}
    (h : form ∈ set.forms) : set.get? form.opcode = some form :=
  find?_of_nodup set.unambiguous.opcodes_nodup h

theorem yields_decodeOpcode : set.decodeOpcode.Yields fun bytes opcode =>
      bytes.length = opcode.bytes.length := by
  refine yields_byte.bind fun _ _ hfront => ?_
  split
  · refine yields_byte.map fun _ _ hback => ?_
    rw [List.length_append, hfront, hback]
    rfl
  · refine yields_pure ?_
    rw [List.append_nil, hfront]
    rfl

/-- An opcode of the set is read back. -/
theorem reads_decodeOpcode {form : Form} (h : form ∈ set.forms) :
    Reads set.decodeOpcode form.opcode.bytes form.opcode := by
  cases hopcode : form.opcode with
  | single code =>
    have hparent : set.isParent code = false := by
      simpa [isParent] using set.unambiguous.single form h code hopcode
    intro chunk tail position
    unfold decodeOpcode
    rw [Opcode.bytes, run_bind_of_ok (reads_byte code chunk tail position), hparent]
    rfl
  | extended parent code =>
    have hparent : set.isParent parent = true := by
      simpa [isParent] using set.unambiguous.extended form h parent code hopcode
    refine Reads.bind (reads_byte parent) ?_
    rw [if_pos hparent]
    exact (reads_byte code).map fun code => Opcode.extended parent code

/-- Reading opcode after opcode to the end of the input. -/
inductive DecodesTo (set : InstructionSet) : ByteInput → List Opcode → Prop where
  | nil {input : ByteInput} (hend : input.rest = []) : DecodesTo set input []
  | cons {input later : ByteInput} {opcode : Opcode} {opcodes : List Opcode}
      (hfirst : set.decodeOpcode.run input = .ok opcode later)
      (hrest : DecodesTo set later opcodes) : DecodesTo set input (opcode :: opcodes)

/-- Opcodes of the set are read back, and in one way only. -/
theorem decodesTo_iff {opcodes found : List Opcode}
    (h : ∀ opcode ∈ opcodes, opcode ∈ set.forms.map (·.opcode)) (chunk : String) (position : Nat) :
    set.DecodesTo ⟨chunk, opcodes.flatMap Opcode.bytes, position⟩ found ↔ found = opcodes := by
  induction opcodes generalizing found position with
  | nil =>
    refine ⟨fun hfound => ?_, ?_⟩
    · cases hfound with
      | nil => rfl
      | @cons _ later opcode _ hfirst _ =>
        -- an opcode has a byte, and there is none
        obtain ⟨_, hbytes, hlength⟩ := yields_decodeOpcode.took hfirst
        obtain ⟨rfl, -⟩ := List.nil_eq_append_iff.1 hbytes
        exact absurd (List.length_eq_zero_iff.1 hlength.symm) opcode.bytes_ne_nil
    · rintro rfl
      exact .nil rfl
  | cons opcode rest ih =>
    obtain ⟨hopcode, hrest⟩ := List.forall_mem_cons.1 h
    obtain ⟨form, hform, rfl⟩ := List.mem_map.1 hopcode
    rw [List.flatMap_cons]
    have hread := reads_decodeOpcode hform chunk (rest.flatMap Opcode.bytes) position
    refine ⟨fun hfound => ?_, ?_⟩
    · cases hfound with
      | nil hend =>
        exact absurd (List.append_eq_nil_iff.1 hend).1 form.opcode.bytes_ne_nil
      | cons hfirst hlater =>
        rw [hread] at hfirst
        cases hfirst
        rw [(ih hrest _).1 hlater]
    · rintro rfl
      exact .cons hread ((ih hrest _).2 rfl)

/-- A table is taken exactly if it is unambiguous. Then every form is
found by its opcode, the forms of a mnemonic stand in the order of the
table, and opcodes written one behind the other are read back in one way
only, which is as they were. -/
theorem build_decodable (parents : List UInt8) (forms : List Form) :
    ((∃ set, build parents forms = .ok set) ↔ Unambiguous parents forms)
      ∧ ∀ set, build parents forms = .ok set → (∀ form ∈ forms, set.get? form.opcode = some form)
          ∧ (∀ mnemonic, set.overloads mnemonic
            = forms.filter (·.mnemonic = mnemonic))
          ∧ ∀ opcodes, (∀ opcode ∈ opcodes, opcode ∈ forms.map (·.opcode)) →
            ∀ chunk position found, set.DecodesTo
                ⟨chunk, opcodes.flatMap Opcode.bytes, position⟩ found
              ↔ found = opcodes := by
  constructor
  · rw [← TableFault.find?_eq_none_iff]
    unfold build
    split
    · rename_i hnone
      exact iff_of_true ⟨_, rfl⟩ hnone
    · rename_i fault hfault
      rw [hfault]
      exact iff_of_false (fun ⟨_, hset⟩ => by cases hset) nofun
  · intro set hset
    obtain ⟨-, rfl⟩ := build_ok hset
    refine ⟨fun form => set.get?_of_mem, fun mnemonic => ?_, ?_⟩
    · exact List.filter_congr fun form _ => beq_eq_decide ..
    · exact fun opcodes hopcodes chunk position found =>
        decodesTo_iff hopcodes chunk position

end InstructionSet

end StackAsm
