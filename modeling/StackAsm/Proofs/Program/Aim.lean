/-
Branches aimed at once. All that a branch needs is in its own method: the
place of the label it names. `Method.aim` sets every target to that
place, whatever it was before.

Fixes come to the same, though they are kept apart from the program, set
one target after the other and run in the order in which the methods were
read: no fix changes what aiming gives (`Program.aim_fixBranches`), and
methods that are settled are aimed already (`Program.aim_eq_self`).
-/
import StackAsm.Proofs.Program.Members
import StackAsm.Proofs.Program.Order

namespace StackAsm

-- ==== aiming

/-- The operand with the place of its label as target. -/
def Operand.aim (labels : List Label) : Operand → Operand
  | .label index _ =>
    .label index ((labels.find? (·.index == index)).bind Label.offset)
  | other => other

def Instruction.aim (labels : List Label) (instruction : Instruction) : Instruction :=
  { instruction with
    operands := instruction.operands.map (Operand.aim labels) }

/-- The method with every branch aimed at its label. -/
def Method.aim (method : Method) : Method :=
  { method with
    body :=
      { method.body with
        instructions := method.body.instructions.map (.aim method.body.labels) } }

/-- The program with every branch aimed at its label. -/
def Program.aim (program : Program) : Program := program.mapMembers id Method.aim id

-- ==== fixes

variable {labels : List Label}

/-- A target that is filled in does not matter to aiming. -/
theorem Instruction.aim_of_setTarget? {instruction aimed : Instruction}
    {slot : Nat} {target : UInt32} (h : instruction.setTarget? slot target = some aimed) :
    aimed.aim labels = instruction.aim labels := by
  unfold setTarget? at h
  split at h
  · rename_i index old hop
    cases h
    exact congrArg (Instruction.mk instruction.opcode · instruction.line)
      (map_set_of_eq hop rfl)
  · cases h

theorem Branch.aim_of_fix {branch : Branch} {body fixed : OpenBody}
    (h : branch.fix.run body = .ok fixed) :
    fixed.code.toList.map (Instruction.aim labels)
      = body.code.toList.map (Instruction.aim labels) := by
  obtain ⟨place, -, hset⟩ := exists_place_of_fix h
  have hlist := body.toList_setTarget? branch.key place
  rw [hset, Option.map_some, eq_comm, Option.map_eq_some_iff] at hlist
  obtain ⟨_, haimed, hcode⟩ := hlist
  obtain ⟨_, hfound, haimed⟩ := Option.bind_eq_some_iff.1 haimed
  rw [← hcode]
  exact map_set_of_eq hfound (Instruction.aim_of_setTarget? haimed)

/-- The fixes of a method do not matter to aiming. -/
theorem BranchFixes.aim_apply {fixes : BranchFixes} {method : Method}
    (hsuits : fixes.Suits method) :
    Method.aim { method with body := (fixes.apply method.body).1 } = method.aim := by
  rcases fixes.apply_cases method.body with ⟨-, happly⟩ | ⟨-, hbody, -⟩
  · rw [happly]
  · obtain ⟨_, hmarks⟩ := hsuits.queue
    obtain ⟨sorted, -, hsorted⟩ := PatchQueue.schedule_of_waiting hmarks.waiting
    let aimed := fun body : OpenBody =>
      body.code.toList.map (Instruction.aim method.body.labels)
    have hcode := @PatchQueue.keeps_runAll
      (fun body fixed => aimed fixed = aimed body) (fun _ => rfl)
      (fun hfirst hsecond => hsecond.trans hfirst) Branch.aim_of_fix sorted (.ofBody method.body)
    rw [hsorted] at hbody
    rw [hbody]
    exact congrArg (fun code => { method with
      body := { method.body with instructions := code } }) hcode

theorem Instruction.unaimed_aim (instruction : Instruction) :
    (instruction.aim labels).unaimed = instruction.unaimed := by
  have hop : ∀ operand : Operand, (operand.aim labels).unaimed = operand.unaimed := by
    intro operand
    cases operand <;> rfl
  unfold Instruction.aim unaimed
  simp only [List.map_map, Function.comp_def, hop]

/-- Methods that are aimed alike differ in the targets of branches
only. -/
theorem Method.aims_of_aim {method other : Method}
    (h : other.aim = method.aim) : method.Aims other := by
  have hview : ∀ method : Method, method.aim.body.instructions.map Instruction.unaimed
        = method.body.instructions.map Instruction.unaimed := by
    intro method
    exact List.map_map.trans (List.map_congr_left fun instruction _ => instruction.unaimed_aim)
  refine ⟨other.body.instructions, ?_, ?_⟩
  · rw [← hview other, h, hview]
  · exact congrArg (fun aimed : Method => { aimed with
      body := { aimed.body with
        instructions := other.body.instructions } }) h

/-- A branch that is aimed stays as it is. -/
theorem Method.aim_eq_self {method : Method} (h : method.body.Aimed) : method.aim = method := by
  have hcode : ∀ instruction ∈ method.body.instructions,
      instruction.aim method.body.labels = instruction := by
    intro instruction hmem
    have hop : ∀ operand ∈ instruction.operands, operand.aim method.body.labels = operand := by
      intro operand hop
      cases operand with
      | label index target =>
        obtain ⟨label, _, hlabel, hoffset, rfl⟩ := h instruction hmem index target hop
        exact congrArg (Operand.label index) (Option.bind_eq_some_iff.2 ⟨label, hlabel, hoffset⟩)
      | _ => rfl
    unfold Instruction.aim
    rw [List.map_congr_left hop, List.map_id']
  unfold aim
  rw [List.map_congr_left hcode, List.map_id']

-- ==== types

namespace TypeDecl

variable {onField : Field → Field} {onMethod : Method → Method} {onLine : Nat → Nat}

theorem map_changeFirst {α β : Type} {p : α → Bool} {change : α → α}
    {f : α → β} {items : List α} {item : α}
    (hfind : items.find? p = some item) (h : f (change item) = f item) :
    (changeFirst p change items).map f = items.map f := by
  obtain ⟨_, _, rfl, heq⟩ := changeFirst_of_find? hfind
  rw [heq, List.map_append, List.map_append, List.map_cons, List.map_cons, h]

/-- A change at a path that members do not show is not shown at all. -/
theorem mapMembers_changeAtPath {path : List String} {types : List TypeDecl} {type : TypeDecl}
    {change : TypeDecl → TypeDecl} (hfound : atPath? path types = some type)
    (h : (change type).mapMembers onField onMethod onLine
      = type.mapMembers onField onMethod onLine) :
    (changeAtPath change path types).map (mapMembers onField onMethod onLine)
      = types.map (mapMembers onField onMethod onLine) := by
  fun_induction atPath? path types with
  | case1 => cases hfound
  | case2 => exact map_changeFirst hfound h
  | case3 name rest types hrest ih =>
    obtain ⟨next, hfind, hnext⟩ := Option.bind_eq_some_iff.1 hfound
    rw [changeAtPath.eq_3 _ _ _ _ hrest]
    refine map_changeFirst hfind ?_
    rw [mapMembers_eq, mapMembers_eq]
    exact congrArg (fun nested => TypeDecl.mk next.name next.attrs
      (next.fields.map onField) (next.methods.map onMethod) nested
      (onLine next.line)) (ih next hnext)

end TypeDecl

-- ==== programs

namespace Program

variable {program fixed other : Program} {fix : BranchFixes} {fixes todo : List BranchFixes}

theorem mapMembers_changeType? {onField : Field → Field}
    {onMethod : Method → Method} {onLine : Nat → Nat} {full : String}
    {type : TypeDecl} {change : TypeDecl → TypeDecl} {changed : Program}
    (hfind : program.find? full = some type)
    (hchanged : program.changeType? full change = some changed)
    (h : (change type).mapMembers onField onMethod onLine
      = type.mapMembers onField onMethod onLine) :
    changed.mapMembers onField onMethod onLine = program.mapMembers onField onMethod onLine := by
  obtain ⟨front, _, _, hsplit, hspace, hback⟩ := exists_namespace_of_find? hfind
  obtain ⟨_, hpath, htype⟩ := Option.bind_eq_some_iff.1 hspace
  rw [changeType?, hsplit, changeLast?_append change front hpath htype hback] at hchanged
  cases hchanged
  unfold mapMembers
  simp only [hsplit, List.map_append, List.map_cons,
    TypeDecl.mapAllMembers_eq, TypeDecl.mapMembers_changeAtPath htype h]

theorem Fixed.aim {type : TypeDecl} {method : Method} {left right : List TypeEntry}
    (hfixed : Fixed program fixed fix type method left right) :
    fixed.aim = program.aim := by
  refine mapMembers_changeType? hfixed.found hfixed.changed ?_
  rw [TypeDecl.mapMembers_eq, TypeDecl.mapMembers_eq]
  exact congrArg (fun methods => TypeDecl.mk type.name type.attrs (type.fields.map id) methods
      (type.nested.map (TypeDecl.mapMembers id Method.aim id)) type.line)
    (map_set_of_eq hfixed.place (BranchFixes.aim_apply hfixed.suits))

/-- Fixes do not matter to aiming, whatever is reported. -/
theorem aim_fixBranches (hlink : Linkable program.entries fixes)
    (htodo : ∀ fix ∈ todo, fix ∈ fixes) (log : Log) :
    (program.fixBranches log todo).1.aim = program.aim := by
  induction todo generalizing program log with
  | nil => rfl
  | cons fix rest ih =>
    obtain ⟨hfix, hrest⟩ := List.forall_mem_cons.1 htodo
    obtain ⟨_, _, _, _, hfixed, -⟩ := fixMethod_eq hlink hfix log
    exact (ih (hfixed.linkable hlink hfix) hrest _).trans hfixed.aim

theorem aim_eq_self (h : ∀ entry ∈ program.methods, entry.2.body.Aimed) :
    program.aim = program := by
  have htypes : ∀ space ∈ program.namespaces, TypeDecl.mapAllMembers id Method.aim id space.types
        = space.types := by
    intro space hspace
    rw [TypeDecl.mapAllMembers_eq]
    refine (List.map_congr_left fun type htype => ?_).trans (List.map_id' _)
    refine TypeDecl.mapMembers_eq_self space.name fun entry hentry =>
      ⟨fun _ _ => rfl, fun method hmethod => Method.aim_eq_self ?_, rfl⟩
    refine h (entry.1, method) (List.mem_flatMap.2 ⟨entry, ?_,
      List.mem_map.2 ⟨method, hmethod, rfl⟩⟩)
    exact List.mem_flatMap.2 ⟨space, hspace, TypeDecl.mem_walkAll.2 ⟨type, htype, hentry⟩⟩
  have hspaces : program.namespaces.map (fun space => { space with
      types := TypeDecl.mapAllMembers id Method.aim id space.types })
      = program.namespaces := by
    refine (List.map_congr_left fun space hspace => ?_).trans (List.map_id' _)
    rw [htypes space hspace]
  exact congrArg (fun namespaces => { program with namespaces }) hspaces

theorem spread_mapMembers (onField : Field → Field)
    (onMethod : Method → Method) (onLine : Nat → Nat) (program : Program) :
    (program.mapMembers onField onMethod onLine).spread = program.spread.map fun entry =>
        (entry.1, entry.2.mapMembers onField onMethod onLine) := by
  unfold spread mapMembers
  simp only [List.flatMap_map, List.map_flatMap,
    TypeDecl.mapAllMembers_eq, List.map_map, Function.comp_def]

theorem methods_aim (program : Program) :
    program.aim.methods = program.methods.map fun entry => (entry.1, entry.2.aim) := by
  unfold methods aim
  rw [types_mapMembers]
  simp only [List.flatMap_map, List.map_flatMap, TypeDecl.mapMembers_eq, List.map_map]
  rfl

/-- Programs that are aimed alike have the same methods, aimed alike. -/
theorem exists_aim_eq (h : program.aim = other.aim)
    {entry : String × Method} (hentry : entry ∈ program.methods) :
    ∃ method, (entry.1, method) ∈ other.methods ∧ entry.2.aim = method.aim := by
  have hmem : (entry.1, entry.2.aim) ∈ other.aim.methods := by
    rw [← h, methods_aim]
    exact List.mem_map_of_mem hentry
  rw [methods_aim] at hmem
  obtain ⟨⟨_, method⟩, hmethod, heq⟩ := List.mem_map.1 hmem
  obtain ⟨rfl, haim⟩ := Prod.mk.inj heq
  exact ⟨method, hmethod, haim.symm⟩

/-- What does not look at targets holds of a program if it holds of one
that is aimed alike. -/
theorem All.of_aim {P : List Field → List Method → Prop} (h : program.All P)
    (haims : ∀ {fields methods others}, P fields methods →
      Method.AimsEach methods others → P fields others)
    (hsame : fixed.aim = program.aim) : fixed.All P := by
  refine .of_forall_types fun entry hentry => ?_
  have hmem : (entry.1, entry.2.mapMembers id Method.aim id) ∈ program.aim.types := by
    rw [← hsame, aim, types_mapMembers]
    exact List.mem_map_of_mem hentry
  rw [aim, types_mapMembers] at hmem
  obtain ⟨old, hold, heq⟩ := List.mem_map.1 hmem
  have hmembers := congrArg Prod.snd heq
  rw [TypeDecl.mapMembers_eq, TypeDecl.mapMembers_eq] at hmembers
  injection hmembers with _ _ hfields hmethods
  rw [List.map_id, List.map_id] at hfields
  rw [← hfields]
  refine haims (h.of_types hold) fun other hother => ?_
  have haimed : other.aim ∈ old.2.methods.map Method.aim := by
    rw [hmethods]
    exact List.mem_map_of_mem hother
  obtain ⟨method, hmethod, haim⟩ := List.mem_map.1 haimed
  exact ⟨method, hmethod, Method.aims_of_aim haim.symm⟩

theorem Alike.aim (h : program.Alike other) : program.aim.Alike other.aim where
  spread := by
    unfold Program.aim
    rw [spread_mapMembers, spread_mapMembers]
    exact h.spread.map _
  externals := h.externals
  aliases := h.aliases

end Program

end StackAsm
