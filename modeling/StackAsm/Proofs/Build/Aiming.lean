/-
Branches of a build. The fixes of a method are applied long after it was
read, to a program that later files have extended. They find it all the
same, at its place in its type, and each of them finds the branch it was
made for; so no fix ever fails for another reason than a label that was
never placed, and that is reported as such (`Program.adds_fixBranches`).
If nothing at all is reported, every branch has the place of its own
method's label as its target (`Reading.branches_aimed`).
-/
import StackAsm.Proofs.Build.Reading

namespace StackAsm

open Diagnostic

variable {set : InstructionSet}

-- ==== reports

/-- Whether a diagnostic is about branches that could not be fixed. -/
def Diagnostic.IsBranchFault (d : Diagnostic) : Prop :=
  "Branch targets could not be fixed".toList <+: d.message.toList
    ∨ "Branch target could not be fixed".toList <+: d.message.toList

theorem Diagnostic.not_isBranchFault_of_plain {d : Diagnostic}
    (h : Plain d.message) : ¬ d.IsBranchFault := by
  obtain ⟨_, hc, hplain⟩ := h
  have hfirst : ∀ text : List Char, 'B' :: text <+: d.message.toList → False := by
    rintro text ⟨_, hrest⟩
    rw [← hrest] at hc
    cases hc
    exact hplain rfl
  rintro (hmany | hone)
  · exact hfirst _ hmany
  · exact hfirst _ hone

theorem PendingReference.plain_complaint (reference : PendingReference)
    {problem : String} (h : Plain problem) :
    Plain (reference.complaint problem).message :=
  plain_messageWith _ (plain_append _ (plain_append _ (plain_append _ h)))

theorem Declarations.plain_complaints (table : Declarations)
    (reported : Table MissingKey Unit) (references : List Reference) :
    ∀ d ∈ table.complaints reported references, Plain d.message := by
  induction references generalizing reported with
  | nil => exact List.forall_mem_nil _
  | cons first rest ih =>
    cases first with
    | resolved => exact ih reported
    | pending reference =>
      unfold Declarations.complaints
      split
      · exact ih reported
      · simp only
        split
        · exact ih reported
        · rw [List.forall_mem_cons]
          exact ⟨reference.plain_complaint (by decide), ih _⟩
      · rw [List.forall_mem_cons]
        exact ⟨reference.plain_complaint (by decide), ih _⟩

theorem BranchFixes.plain_unplaced (fixes : BranchFixes)
    (body : MethodBody) : ∀ d ∈ fixes.unplaced body, Plain d.message := by
  intro d hd
  obtain ⟨_, -, rfl⟩ := List.mem_map.1 hd
  exact plain_messageWith _ (by decide)

-- ==== fixes

theorem Method.Tidy.index_mem_of_isBranch {method : Method}
    (h : method.Tidy set) {position slot : Nat} {index : UInt16}
    (hbranch : Instruction.IsBranch method.body.instructions position slot index) :
    index ∈ method.body.labels.map (·.index) := by
  obtain ⟨target, hop⟩ := hbranch
  obtain ⟨instruction, hplace, hslot⟩ := Option.bind_eq_some_iff.1 hop
  exact (h.code instruction (List.mem_of_getElem? hplace)).labels index
    target (List.mem_of_getElem? hslot)

/-- Tidy members, with places in methods that thirty-two bits can
count. -/
structure CountedMembers (set : InstructionSet) (fields : List Field)
    (methods : List Method) : Prop where
  tidy : TidyMembers set fields methods
  small : ∀ method ∈ methods, method.body.instructions.length < UInt32.size

theorem CountedMembers.aims {fields : List Field}
    {methods others : List Method} (h : CountedMembers set fields methods)
    (haims : Method.AimsEach methods others) :
    CountedMembers set fields others := by
  refine ⟨h.tidy.aims haims, fun other hother => ?_⟩
  obtain ⟨method, hmethod, code, hcode, rfl⟩ := haims other hother
  have hlength := congrArg List.length hcode
  rw [List.length_map, List.length_map] at hlength
  show code.length < UInt32.size
  rw [hlength]
  exact h.small method hmethod

theorem CountedMembers.mapReferences {fields : List Field}
    {methods : List Method} (h : CountedMembers set fields methods) (f : Reference → Reference) :
    CountedMembers set (fields.map (Field.mapReference f))
      (methods.map (Method.mapReferences f)) := by
  refine ⟨h.tidy.mapReferences f, fun _ hother => ?_⟩
  obtain ⟨method, hmethod, rfl⟩ := List.mem_map.1 hother
  show (method.body.instructions.map _).length < _
  rw [List.length_map]
  exact h.small method hmethod

/-- All that fixes report is labels that were never placed. -/
theorem Program.adds_fixBranches {program : Program} {fixes todo : List BranchFixes}
    (hlink : Linkable program.entries fixes) (htodo : ∀ fix ∈ todo, fix ∈ fixes)
    (h : program.All (CountedMembers set)) (log : Log) :
    Log.Adds Plain log (program.fixBranches log todo).2.1 := by
  induction todo generalizing program log with
  | nil => exact Log.adds_of_reported rfl rfl
  | cons fix rest ih =>
    obtain ⟨hfix, hrest⟩ := List.forall_mem_cons.1 htodo
    obtain ⟨_, method, _, _, hfixed, hlog⟩ := fixMethod_eq hlink hfix log
    have hmembers := h.of_find? hfixed.found
    have hmethod := List.mem_of_getElem? hfixed.place
    have hcomplaints := BranchFixes.complaints_apply hfixed.suits
      (Nat.le_of_lt (hmembers.small method hmethod))
      fun _ _ _ =>
        (hmembers.tidy.methods method hmethod).index_mem_of_isBranch
    have hfirst : Log.Adds Plain log (program.fixMethod log fix).2.1 := by
      rw [hlog, hcomplaints]
      exact Log.adds_reportAll _ (fix.plain_unplaced method.body)
    exact hfirst.trans (ih (hfixed.linkable hlink hfix) hrest
      (h.of_aim CountedMembers.aims hfixed.aim) _)

-- ==== files

namespace Reading

variable {set : InstructionSet} {reading : Reading}

/-- Linking reports nothing about fixes that fail. -/
theorem Sound.adds_link (h : reading.Sound set)
    (hcounted : reading.program.All (CountedMembers set)) :
    Log.Adds Plain reading.log reading.link.log := by
  let f := reading.program.declarations.settle
  have hresolve : Log.Adds Plain reading.log (reading.program.resolve reading.log).2.2 :=
    Log.adds_reportAll _ (Declarations.plain_complaints _ _ _)
  exact hresolve.trans (Program.adds_fixBranches
    (Program.linkable_mapReferences f h.linkable) (fun _ hfix => hfix)
    (hcounted.mapReferences f fun _ _ hmembers => hmembers.mapReferences f) _)

theorem Sound.counted_link (h : reading.Sound set)
    (hcounted : reading.program.All (CountedMembers set)) :
    reading.link.program.All (CountedMembers set) := by
  let f := reading.program.declarations.settle
  refine (hcounted.mapReferences f fun _ _ hmembers =>
    hmembers.mapReferences f).of_aim CountedMembers.aims ?_
  exact Program.aim_fixBranches (Program.linkable_mapReferences f h.linkable) (fun _ hfix => hfix) _

/-- What files amount to that are read one after the other. -/
def ofFiles (set : InstructionSet) (log : Log) (files : List (String × String)) : Reading :=
  files.foldl (fun reading file => (reading.add set file.1 file.2).1) { log }

theorem sound_ofFiles (set : InstructionSet) (log : Log) (files : List (String × String)) :
    (ofFiles set log files).Sound set ∧ Log.Adds Plain log (ofFiles set log files).log := by
  have hfold : ∀ reading : Reading, reading.Sound set → Log.Adds Plain log reading.log →
      Sound set (files.foldl (fun reading file =>
          (reading.add set file.1 file.2).1) reading)
        ∧ Log.Adds Plain log (files.foldl (fun reading file =>
          (reading.add set file.1 file.2).1) reading).log := by
    induction files with
    | nil => exact fun reading hsound hadds => ⟨hsound, hadds⟩
    | cons file rest ih =>
      intro reading hsound hadds
      have hopened : Log.Adds Plain log (reading.log.openFile file.1) :=
        hadds.trans (Log.adds_of_reported rfl rfl)
      exact ih _ ((reading.extends_add set file.1 file.2).sound hsound)
        (hopened.trans (reading.program.adds_parse set file.2 _))
  exact hfold _ (sound_empty set log) (Log.adds_of_reported rfl rfl)

theorem counted_of_methods (h : reading.Sound set)
    (hsmall : ∀ entry ∈ reading.program.methods, entry.2.body.instructions.length < UInt32.size) :
    reading.program.All (CountedMembers set) := by
  refine .of_forall_types fun entry hentry => ?_
  refine ⟨h.tidy.of_types hentry, fun method hmethod => ?_⟩
  exact hsmall (entry.1, method) (List.mem_flatMap.2
    ⟨entry, hentry, List.mem_map.2 ⟨method, hmethod, rfl⟩⟩)

/-- Whatever files are read and linked, no fix of a branch is reported to
fail; and if no error is reported, every branch has as its target the
place of the label it names in its own method, inside the code. -/
theorem branches_aimed (set : InstructionSet) (escalate : Bool) (files : List (String × String))
    (hsmall : ∀ entry ∈ (ofFiles set { warningsAsErrors := escalate } files).program.methods,
      entry.2.body.instructions.length < UInt32.size) :
    let linked := (ofFiles set { warningsAsErrors := escalate } files).link
    (∀ d ∈ linked.log.diagnostics, ¬ d.IsBranchFault)
      ∧ (linked.log.hasErrors = false → ∀ entry ∈ linked.program.methods,
        ∀ instruction ∈ entry.2.body.instructions, ∀ index target,
          .label index target ∈ instruction.operands →
          ∃ label place, entry.2.body.labelAt? index = some label
            ∧ label.offset = some place ∧ target = some place
            ∧ place.toNat ≤ entry.2.body.instructions.length) := by
  obtain ⟨hsound, hread⟩ := sound_ofFiles set { warningsAsErrors := escalate } files
  have hcounted := counted_of_methods hsound hsmall
  have hadds := hread.trans (hsound.adds_link hcounted)
  constructor
  · intro d hd
    exact not_isBranchFault_of_plain
      (hadds.forall_mem (List.forall_mem_nil _) d (List.mem_reverse.1 hd))
  · intro herrors entry hentry instruction hinstruction index target hlabel
    have hzero := Nat.eq_zero_of_not_pos (of_decide_eq_false herrors)
    have hle := (ofFiles set { warningsAsErrors := escalate } files).errorCount_le_link
    have hlinked := hsound.link (by omega)
    have hsettled := Program.settled_of_linkable hlinked.linkable entry hentry
    obtain ⟨fields, methods, hmembers, hmethod⟩ := (hsound.counted_link hcounted).of_methods hentry
    obtain ⟨label, place, hfound, hoffset, htarget⟩ :=
      hsettled.aimed (Nat.le_of_lt (hmembers.small entry.2 hmethod))
        instruction hinstruction index target hlabel
    refine ⟨label, place, hfound, hoffset, htarget, ?_⟩
    exact (hmembers.tidy.methods entry.2 hmethod).offsets label
      (List.mem_of_find?_eq_some hfound) place hoffset

end Reading

namespace Sample

/-- Two files with one namespace. Both have a method with a loop, at other
places, and one of the types is nested. -/
def loops : List (String × String) :=
  [("first", ".namespace N \x7b\n.type A \x7b\n.method m() \x7b\nnop\n"
      ++ "jmp end\nend:\n\x7d\n\x7d\n\x7d\n"),
    ("second", ".namespace N \x7b\n.type B \x7b\n.type A \x7b\n"
      ++ ".method m() \x7b\nend:\njmp end\n\x7d\n\x7d\n\x7d\n\x7d\n")]

theorem link_loops :
    let reading := Reading.ofFiles .standard {} loops
    (∀ entry ∈ reading.program.methods, entry.2.body.instructions.length < UInt32.size)
      ∧ reading.link.log.hasErrors = false ∧ reading.link.program.methods.map
          (fun entry => entry.2.body.instructions.map (·.operands))
        = [[[], [.label 0 (some 2)]], [[.label 0 (some 0)]]] := by
  decide +kernel

/-- The files have two methods with a branch each and are linked without
an error, so each branch has the place of its own label. -/
theorem branches_aimed_loops :
    (Reading.ofFiles .standard {} loops).link.log.hasErrors = false
      ∧ (Reading.ofFiles .standard {} loops).link.program.methods.map
          (fun entry => entry.2.body.instructions.map (·.operands))
        = [[[], [.label 0 (some 2)]], [[.label 0 (some 0)]]]
      ∧ ∀ entry ∈ (Reading.ofFiles .standard {} loops).link.program.methods,
        ∀ instruction ∈ entry.2.body.instructions, ∀ index target,
          .label index target ∈ instruction.operands →
          ∃ label place, entry.2.body.labelAt? index = some label
            ∧ label.offset = some place ∧ target = some place
            ∧ place.toNat ≤ entry.2.body.instructions.length := by
  obtain ⟨hsmall, herrors, hoperands⟩ := link_loops
  have haimed := Reading.branches_aimed .standard false loops hsmall
  exact ⟨herrors, hoperands, haimed.2 herrors⟩

end Sample

end StackAsm
