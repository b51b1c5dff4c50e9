/-
Methods while they are read. Labels are numbered in the order they come,
so no index is repeated. Every instruction hands over the fixes of its
branches as it is appended; their places are new, so none is dropped, and
at any time the waiting fixes are those of the branches so far
(`OpenMethod.Sound`). What wraps is left out: code whose positions cannot
be counted in thirty-two bits is not written anyway.
-/
import StackAsm.Proofs.Parse.Arguments
import StackAsm.Proofs.Patch.Queue
import StackAsm.Proofs.Program.Branches
import StackAsm.Proofs.Program.Names

namespace StackAsm

open Instruction

-- ==== queues

namespace PatchQueue

variable {queue : PatchQueue OpenBody BranchFault}

/-- Patches for new and distinct places are all taken. -/
theorem enqueueAll_of_new {branches : List Branch} (hnodup : (branches.map (·.key)).Nodup)
    (hnew : ∀ branch ∈ branches, branch.key ∉ queue.taken) :
    ((branches.map Branch.fix).foldl enqueue queue).waiting
        = (branches.map Branch.fix).reverse ++ queue.waiting
      ∧ ∀ key, key ∈ ((branches.map Branch.fix).foldl enqueue queue).taken
        ↔ key ∈ branches.map (·.key) ∨ key ∈ queue.taken := by
  induction branches generalizing queue with
  | nil => exact ⟨rfl, fun key => (or_iff_right List.not_mem_nil).symm⟩
  | cons branch rest ih =>
    rw [List.map_cons, List.nodup_cons] at hnodup
    obtain ⟨hfirst, hrest⟩ := List.forall_mem_cons.1 hnew
    obtain ⟨hwaiting, htaken⟩ := @enqueue_of_new _ _ queue branch.fix hfirst
    have hlater : ∀ other ∈ rest, other.key ∉ (queue.enqueue branch.fix).taken := by
      intro other hother hmem
      rcases (htaken _).1 hmem with hsame | hold
      · exact hnodup.1 (List.mem_map.2 ⟨other, hother, hsame⟩)
      · exact hrest other hother hold
    obtain ⟨hall, hkeys⟩ := ih hnodup.2 hlater
    rw [List.map_cons, List.foldl_cons]
    refine ⟨?_, ?_⟩
    · rw [hall, hwaiting, List.reverse_cons, List.append_assoc]
      rfl
    · intro key
      rw [hkeys, htaken, List.map_cons, List.mem_cons, or_left_comm, or_assoc]
      rfl

/-- Whatever is dropped, only fixes are waiting. -/
theorem exists_branches_enqueueAll {waiting : List Branch}
    (h : queue.waiting = waiting.map Branch.fix) (branches : List Branch) :
    ∃ all : List Branch, ((branches.map Branch.fix).foldl enqueue queue).waiting
        = all.map Branch.fix := by
  induction branches generalizing queue waiting with
  | nil => exact ⟨waiting, h⟩
  | cons branch rest ih =>
    rw [List.map_cons, List.foldl_cons]
    by_cases hnew : branch.key ∈ queue.taken
    · rw [@enqueue_of_known _ _ queue branch.fix hnew]
      exact ih h
    · obtain ⟨hwaiting, -⟩ := @enqueue_of_new _ _ queue branch.fix hnew
      refine @ih _ (branch :: waiting) ?_
      rw [hwaiting, h]
      rfl

end PatchQueue

-- ==== operands

/-- The operands of an instruction can be counted in sixteen bits. -/
theorem InstructionSet.length_operands (set : InstructionSet) {form : Form}
    {ctx : ArgumentContext} {args : List Argument}
    {operands : List Operand} {implicit : List String} (hform : form ∈ set.forms)
    (hread : (form.read ctx args).run [] = .ok operands implicit) :
    operands.length ≤ UInt16.size := by
  have harity := set.unambiguous.arity_le form hform
  have hlength : form.arity = operands.length :=
    List.Forall₂.length_eq (Form.reads_of_read hread).read.takes
  rw [hlength] at harity
  exact Nat.le_trans harity (by decide)

namespace OpenMethod

variable {placed : OpenMethod} {name : String} {line : Nat}

/-- The fixes of an instruction are those of its branches, at distinct
slots. -/
theorem exists_branches_fixesFrom (position : UInt32) {slot : Nat} {operands : List Operand}
    (hfits : slot + operands.length ≤ UInt16.size) :
    ∃ branches : List Branch, fixesFrom position slot operands = branches.map Branch.fix
      ∧ (branches.map (·.key)).Nodup
      ∧ (∀ branch ∈ branches, branch.key.position = position
        ∧ ∃ place target, branch.key.slot.toNat = slot + place
          ∧ operands[place]? = some (.label branch.index target))
      ∧ ∀ place index target, operands[place]? = some (.label index target) →
        ∃ branch ∈ branches, branch.key.slot.toNat = slot + place := by
  induction operands generalizing slot with
  | nil => exact ⟨[], rfl, List.nodup_nil, List.forall_mem_nil _, fun _ _ _ => nofun⟩
  | cons operand operands ih =>
    rw [List.length_cons] at hfits
    obtain ⟨branches, hfixes, hnodup, hsound, hcomplete⟩ := @ih (slot + 1) (by omega)
    by_cases hlabel : ∃ index target, operand = .label index target
    · obtain ⟨index, target, rfl⟩ := hlabel
      have hslot : (UInt16.ofNat slot).toNat = slot := UInt16.toNat_ofNat_of_lt' (by omega)
      refine ⟨⟨⟨position, UInt16.ofNat slot⟩, index⟩ :: branches, ?_, ?_, ?_, ?_⟩
      · rw [fixesFrom, hfixes]
        rfl
      · -- the operands behind have larger slots
        rw [List.map_cons, List.nodup_cons]
        refine ⟨?_, hnodup⟩
        intro hmem
        obtain ⟨branch, hbranch, hkey⟩ := List.mem_map.1 hmem
        obtain ⟨-, place, -, hplace, -⟩ := hsound branch hbranch
        rw [hkey, hslot] at hplace
        omega
      · rw [List.forall_mem_cons]
        refine ⟨⟨rfl, 0, target, hslot, rfl⟩, ?_⟩
        intro branch hbranch
        obtain ⟨hposition, place, target, hplace, hop⟩ := hsound branch hbranch
        exact ⟨hposition, place + 1, target, by omega, hop⟩
      · intro place index target hop
        cases place with
        | zero => exact ⟨_, .head _, hslot⟩
        | succ place =>
          obtain ⟨branch, hbranch, hplace⟩ := hcomplete place index target hop
          exact ⟨branch, .tail _ hbranch, by omega⟩
    · refine ⟨branches, ?_, hnodup, ?_, ?_⟩
      · rw [fixesFrom, hfixes]
        exact fun index target hop => hlabel ⟨index, target, hop⟩
      · intro branch hbranch
        obtain ⟨hposition, place, target, hplace, hop⟩ := hsound branch hbranch
        exact ⟨hposition, place + 1, target, by omega, hop⟩
      · intro place index target hop
        cases place with
        | zero => exact absurd ⟨index, target, Option.some.inj hop⟩ hlabel
        | succ place =>
          obtain ⟨branch, hbranch, hplace⟩ := hcomplete place index target hop
          exact ⟨branch, hbranch, by omega⟩

/-- What holds of a method at any time while it is read. -/
structure Sound (m : OpenMethod) : Prop where
  part : Text.IsPart m.method.name
  indices : ∀ place label, m.labels[place]? = some label → label.index = UInt16.ofNat place
  labels_le : m.labels.length ≤ labelLimit
  lines : m.labelLines.length = m.labels.length
  suits : m.fixes.Suits m.instructions.reverse
  taken : m.size ≤ UInt32.size → ∀ key ∈ m.fixes.taken, key.position.toNat < m.size

variable {m : OpenMethod}

theorem sound_start {method : Method} (hname : Text.IsPart method.name)
    (reserved : List (String × Nat)) : (start method reserved).Sound where
  part := hname
  indices place label hlabel := by
    change (List.mapIdx _ _)[place]? = some label at hlabel
    rw [List.getElem?_mapIdx] at hlabel
    obtain ⟨_, -, rfl⟩ := Option.map_eq_some_iff.1 hlabel
    rfl
  labels_le := by
    show (List.mapIdx _ _).length ≤ _
    rw [List.length_mapIdx]
    exact List.length_take_le ..
  lines := by
    show (List.map _ _).length = (List.mapIdx _ _).length
    rw [List.length_map, List.length_mapIdx]
  suits := ⟨[], rfl, nofun, nofun⟩
  taken := nofun

/-- The marks about locals do not count. -/
theorem Sound.setMarks (h : m.Sound) (seen declared : Bool) (line : Option Nat) : Sound { m with
      localsSeen := seen
      localsDeclared := declared
      localsLine := line } :=
  ⟨h.part, h.indices, h.labels_le, h.lines, h.suits, h.taken⟩

theorem Sound.setLocals (h : m.Sound) (locals : List Variable) :
    (m.setLocals locals).Sound := ⟨h.part, h.indices, h.labels_le, h.lines, h.suits, h.taken⟩

/-- A label is placed where it was reserved, or reserved now. -/
theorem placeLabel_cases (h : m.placeLabel name line = .ok placed) :
    (∃ place label, m.labels[place]? = some label ∧ label.name = name
      ∧ label.offset = none
      ∧ placed = { m.setLabels (m.labels.set place
          { label with offset := some m.nextOffset }) with
        labelLines := m.labelLines.set place line })
    ∨ (name ∉ m.labels.map (·.name) ∧ m.labels.length < labelLimit
      ∧ placed = { m.setLabels (m.labels ++
          [⟨name, UInt16.ofNat m.labels.length, some m.nextOffset⟩]) with
        labelLines := m.labelLines ++ [line] }) := by
  unfold placeLabel at h
  split at h
  · rename_i place hplace
    obtain ⟨hlt, hname, -⟩ := List.findIdx?_eq_some_iff_getElem.1 hplace
    have hlabel := List.getElem?_eq_getElem hlt
    rw [hlabel, Option.bind_some] at h
    split at h
    · cases h
    · rename_i hnone
      cases h
      refine .inl ⟨place, m.labels[place], hlabel, beq_iff_eq.1 hname,
        Option.not_isSome_iff_eq_none.1 hnone, ?_⟩
      rw [List.modify_eq_set_getElem?, hlabel]
      rfl
  · rename_i hnew
    split at h
    · rename_i hroom
      cases h
      refine .inr ⟨?_, hroom, rfl⟩
      intro hmem
      obtain ⟨label, hlabel, hname⟩ := List.mem_map.1 hmem
      have hother := List.findIdx?_eq_none_iff.1 hnew label hlabel
      rw [hname, beq_self_eq_true] at hother
      cases hother
    · cases h

theorem name_placeLabel (h : m.placeLabel name line = .ok placed) :
    placed.method.name = m.method.name := by
  rcases placeLabel_cases h with ⟨_, _, _, _, _, rfl⟩ | ⟨_, _, rfl⟩ <;> rfl

theorem Sound.placeLabel (h : m.Sound)
    (hplaced : m.placeLabel name line = .ok placed) : placed.Sound := by
  rcases placeLabel_cases hplaced with
    ⟨place, label, hlabel, -, -, rfl⟩ | ⟨-, hroom, rfl⟩
  · -- a label that was found in advance gets its offset
    refine ⟨h.part, ?_, ?_, ?_, h.suits, h.taken⟩
    · intro other changed hchanged
      change (m.labels.set _ _)[other]? = some changed at hchanged
      rw [List.getElem?_set] at hchanged
      split at hchanged
      · rename_i hsame
        subst hsame
        rw [if_pos (List.getElem?_eq_some_iff.1 hlabel).1] at hchanged
        cases hchanged
        exact h.indices place label hlabel
      · exact h.indices other changed hchanged
    · show (List.set _ _ _).length ≤ _
      rw [List.length_set]
      exact h.labels_le
    · show (List.set _ _ _).length = (List.set _ _ _).length
      rw [List.length_set, List.length_set]
      exact h.lines
  · -- a label that was not is put behind the others
    refine ⟨h.part, ?_, ?_, ?_, h.suits, h.taken⟩
    · intro place label hlabel
      change (m.labels ++ [_])[place]? = some label at hlabel
      rw [List.getElem?_append] at hlabel
      split at hlabel
      · exact h.indices place label hlabel
      · rw [List.getElem?_singleton] at hlabel
        split at hlabel
        · cases hlabel
          rw [show place = m.labels.length by omega]
        · cases hlabel
    · show (m.labels ++ [_]).length ≤ _
      rw [List.length_append]
      exact hroom
    · show (m.labelLines ++ [_]).length = (m.labels ++ [_]).length
      rw [List.length_append, List.length_append, h.lines]
      rfl

/-- No label index is repeated. -/
theorem Sound.labels_nodup (h : m.Sound) : (m.labels.map (·.index)).Nodup := by
  have hindices : m.labels.map (·.index) = (List.range m.labels.length).map UInt16.ofNat := by
    apply List.ext_getElem?
    intro place
    rw [List.getElem?_map, List.getElem?_map]
    cases hlabel : m.labels[place]? with
    | none =>
      rw [List.getElem?_eq_none_iff] at hlabel
      rw [List.getElem?_eq_none (by rwa [List.length_range])]
      rfl
    | some label =>
      have hlt := (List.getElem?_eq_some_iff.1 hlabel).1
      rw [List.getElem?_range hlt, Option.map_some, Option.map_some, h.indices place label hlabel]
  rw [hindices]
  exact nodup_map_ofNat h.labels_le

/-- Every instruction adds the fixes of its branches, at places that are
new as long as positions do not wrap. -/
theorem Sound.addInstruction (h : m.Sound) {instruction : Instruction}
    (hfits : instruction.operands.length ≤ UInt16.size) (implicit : List String) :
    (m.addInstruction instruction implicit).Sound := by
  obtain ⟨new, hfixes, hnodup, hsound, hcomplete⟩ :=
    @exists_branches_fixesFrom m.nextOffset 0 instruction.operands (by omega)
  simp only [Nat.zero_add] at hsound hcomplete
  obtain ⟨_, hmarks⟩ := h.suits
  have hlength : m.instructions.reverse.length = m.size := by
    rw [List.length_reverse, m.size_eq]
  suffices hqueue : ((new.map Branch.fix).foldl PatchQueue.enqueue m.fixes).Suits
          (m.instructions.reverse ++ [instruction])
        ∧ (m.size + 1 ≤ UInt32.size → ∀ key ∈ ((new.map Branch.fix).foldl
          PatchQueue.enqueue m.fixes).taken,
            key.position.toNat < m.size + 1) by
    rw [← hfixes] at hqueue
    refine ⟨h.part, h.indices, h.labels_le, h.lines, ?_, hqueue.2⟩
    show PatchQueue.Suits _ (instruction :: m.instructions).reverse
    rw [List.reverse_cons]
    exact hqueue.1
  -- keys are new while positions fit their words; beyond that no key has to be
  by_cases hsmall : m.size + 1 ≤ UInt32.size
  · have hposition : ∀ branch ∈ new, branch.key.position.toNat = m.size := by
      intro branch hbranch
      rw [(hsound branch hbranch).1]
      exact UInt32.toNat_ofNat_of_lt' hsmall
    have hnew : ∀ branch ∈ new, branch.key ∉ m.fixes.taken := by
      intro branch hbranch hmem
      have hlt := h.taken (by omega) _ hmem
      rw [hposition branch hbranch] at hlt
      exact Nat.lt_irrefl _ hlt
    obtain ⟨hqueue, htaken⟩ := PatchQueue.enqueueAll_of_new hnodup hnew
    refine ⟨⟨_, hmarks.append hqueue ?_ ?_ hcomplete⟩, fun _ key hkey => ?_⟩
    · rw [hlength]
      exact hposition
    · intro branch hbranch
      obtain ⟨-, _, target, rfl, hop⟩ := hsound branch hbranch
      exact ⟨target, hop⟩
    · rcases (htaken key).1 hkey with hkey | hkey
      · obtain ⟨branch, hbranch, rfl⟩ := List.mem_map.1 hkey
        rw [hposition branch hbranch]
        exact Nat.lt_succ_self _
      · exact Nat.lt_succ_of_lt (h.taken (by omega) key hkey)
  · obtain ⟨all, hqueue⟩ := PatchQueue.exists_branches_enqueueAll hmarks.waiting new
    have hlarge : ¬ (m.instructions.reverse ++ [instruction]).length ≤ UInt32.size := by
      rw [List.length_append, hlength]
      exact hsmall
    exact ⟨⟨all, hqueue, fun hle => absurd hle hlarge,
      fun hle => absurd hle hlarge⟩, fun hle => absurd hle hsmall⟩

end OpenMethod

end StackAsm
