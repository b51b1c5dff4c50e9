/-
Tidy programs. What a method is made of is checked as it is read: names
of parameters, locals and labels are not repeated, labels are numbered by
their place and lie inside the code, and every instruction is one of the
set, with branches to labels of the table only. A method takes all that
to its type, and a type to its namespace, when its brace is closed, be it
by the text, on a line that is passed over or at the end of the file. So
every program that was read is tidy, whatever the texts: nothing in it is
named twice (`Program.distinct_parseAll`).
-/
import StackAsm.Proofs.Parse.Recovery

namespace StackAsm

variable {set : InstructionSet} {labels : List Label} {instruction : Instruction} {method : Method}

-- ==== methods

/-- Whether an instruction is one of the set and branches to labels of the
table only. -/
structure Instruction.Valid (set : InstructionSet) (labels : List Label)
    (instruction : Instruction) : Prop where
  form : ∃ form ∈ set.forms, form.opcode = instruction.opcode ∧ form.Takes instruction.operands
  labels : ∀ index target, .label index target ∈ instruction.operands → index ∈ labels.map (·.index)

theorem Instruction.Valid.mono {more : List Label} (h : instruction.Valid set labels)
    (hmore : ∀ index ∈ labels.map (·.index), index ∈ more.map (·.index)) :
    instruction.Valid set more :=
  ⟨h.form, fun index target hmem => hmore index (h.labels index target hmem)⟩

/-- Whether nothing in a method is named twice, and labels are numbered by
their place. -/
structure Method.Distinct (method : Method) : Prop where
  params : (method.params.map (·.name)).Nodup
  locals : (method.body.locals.map (·.name)).Nodup
  labels : (method.body.labels.map (·.name)).Nodup
  indices : ∀ (place : Nat) (label : Label),
    method.body.labels[place]? = some label → label.index.toNat = place

/-- What holds of every method that was read. -/
structure Method.Tidy (set : InstructionSet) (method : Method) : Prop extends method.Distinct where
  offsets : ∀ label ∈ method.body.labels, ∀ place, label.offset = some place →
      place.toNat ≤ method.body.instructions.length
  code : ∀ instruction ∈ method.body.instructions, instruction.Valid set method.body.labels

/-- Targets and lines of instructions do not count. -/
theorem Instruction.Valid.of_unaimed {aimed : Instruction} (h : instruction.Valid set labels)
    (hsame : aimed.unaimed = instruction.unaimed) :
    aimed.Valid set labels := by
  obtain ⟨form, hform, hopcode, htakes⟩ := h.form
  injection hsame with hopcodes hoperands
  refine ⟨⟨form, hform, hopcode.trans hopcodes.symm, htakes.of_unaimed hoperands⟩, ?_⟩
  intro index target hmem
  have hview : Operand.label index none ∈ instruction.operands.map Operand.unaimed := by
    rw [← hoperands]
    exact List.mem_map.2 ⟨_, hmem, rfl⟩
  obtain ⟨_, hop, heq⟩ := List.mem_map.1 hview
  obtain ⟨old, rfl⟩ := Operand.unaimed_eq_label.1 heq
  exact h.labels index old hop

theorem Instruction.Valid.mapReferences (h : instruction.Valid set labels)
    (f : Reference → Reference) :
    (instruction.mapReferences f).Valid set labels := by
  obtain ⟨form, hform, hopcode, htakes⟩ := h.form
  refine ⟨⟨form, hform, hopcode, htakes.mapReference f⟩, ?_⟩
  intro index target hmem
  obtain ⟨operand, hop, heq⟩ := List.mem_map.1 hmem
  cases operand with
  | label =>
    cases heq
    exact h.labels index target hop
  | _ => cases heq

theorem Method.Tidy.aims {aimed : Method} (h : method.Tidy set)
    (haims : method.Aims aimed) : aimed.Tidy set := by
  obtain ⟨code, hcode, rfl⟩ := haims
  have hlength : code.length = method.body.instructions.length := by
    have hlengths := congrArg List.length hcode
    rw [List.length_map, List.length_map] at hlengths
    exact hlengths
  refine ⟨⟨h.params, h.locals, h.labels, h.indices⟩, ?_, ?_⟩
  · intro label hlabel place hplace
    exact Nat.le_trans (h.offsets label hlabel place hplace) (Nat.le_of_eq hlength.symm)
  · intro instruction hin
    have hview := @List.mem_map_of_mem _ _ _ _ Instruction.unaimed hin
    rw [hcode] at hview
    obtain ⟨old, hold, hsame⟩ := List.mem_map.1 hview
    exact (h.code old hold).of_unaimed hsame.symm

theorem Method.Tidy.mapReferences (h : method.Tidy set)
    (f : Reference → Reference) : (method.mapReferences f).Tidy set := by
  have hnames : ∀ vars : List Variable, (vars.map (Variable.mapReference f)).map (·.name)
        = vars.map (·.name) := by
    intro vars
    rw [List.map_map]
    rfl
  refine ⟨⟨?_, ?_, h.labels, h.indices⟩, ?_, ?_⟩
  · show ((method.params.map _).map _).Nodup
    rw [hnames]
    exact h.params
  · show ((method.body.locals.map _).map _).Nodup
    rw [hnames]
    exact h.locals
  · intro label hlabel place hplace
    show _ ≤ (method.body.instructions.map _).length
    rw [List.length_map]
    exact h.offsets label hlabel place hplace
  · intro instruction hin
    obtain ⟨old, hold, rfl⟩ := List.mem_map.1 hin
    exact (h.code old hold).mapReferences f

namespace OpenMethod

variable {set : InstructionSet} {m : OpenMethod}

/-- What holds of every method while it is read. -/
structure Tidy (set : InstructionSet) (m : OpenMethod) : Prop where
  sound : m.Sound
  params : (m.method.params.map (·.name)).Nodup
  locals : (m.locals.map (·.name)).Nodup
  labels : (m.labels.map (·.name)).Nodup
  offsets : ∀ label ∈ m.labels, ∀ place, label.offset = some place → place.toNat ≤ m.size
  code : ∀ instruction ∈ m.instructions, instruction.Valid set m.labels

theorem toNat_nextOffset_le (m : OpenMethod) : m.nextOffset.toNat ≤ m.size := by
  unfold nextOffset
  rw [UInt32.toNat_ofNat']
  exact Nat.mod_le ..

/-- The labels of a method that is opened are the first of those
reserved. -/
theorem names_start (method : Method) (reserved : List (String × Nat)) :
    (start method reserved).labels.map (·.name) = (reserved.map (·.1)).take labelLimit := by
  refine List.ext_getElem? fun place => ?_
  show (List.map _ (List.mapIdx _ _))[place]? = _
  rw [List.getElem?_map, List.getElem?_mapIdx, ← List.map_take, List.getElem?_map, Option.map_map]
  rfl

theorem tidy_start (hhead : Parse.IsHead method) {reserved : List (String × Nat)}
    (hreserved : (reserved.map (·.1)).Nodup) :
    (start method reserved).Tidy set where
  sound := sound_start hhead.name.isPart reserved
  params := hhead.params
  locals := by
    show (method.body.locals.map _).Nodup
    rw [hhead.body]
    exact List.nodup_nil
  labels := by
    rw [names_start]
    exact hreserved.sublist (List.take_sublist ..)
  offsets := by
    intro label hlabel place hplace
    obtain ⟨_, _, rfl⟩ := List.mem_mapIdx.1 hlabel
    cases hplace
  code := nofun

theorem Tidy.setMarks (h : m.Tidy set) (seen declared : Bool) (line : Option Nat) :
    Tidy set { m with
      localsSeen := seen
      localsDeclared := declared
      localsLine := line } :=
  ⟨h.sound.setMarks _ _ _, h.params, h.locals, h.labels, h.offsets, h.code⟩

theorem Tidy.addLocal (h : m.Tidy set) {var : Variable}
    (hfresh : m.locals.any (·.name == var.name) = false) :
    (m.setLocals (m.locals ++ [var])).Tidy set where
  sound := h.sound.setLocals _
  params := h.params
  locals := nodup_map_concat h.locals (Parse.not_mem_of_any (Bool.eq_false_iff.1 hfresh))
  labels := h.labels
  offsets := h.offsets
  code := h.code

theorem Tidy.placeLabel (h : m.Tidy set) {placed : OpenMethod} {name : String} {line : Nat}
    (hplaced : m.placeLabel name line = .ok placed) : placed.Tidy set := by
  have hsound := h.sound.placeLabel hplaced
  have hoffset := m.toNat_nextOffset_le
  rcases placeLabel_cases hplaced with
    ⟨place, label, hlabel, -, -, rfl⟩ | ⟨hnew, -, rfl⟩
  · have hnames := @map_set_of_eq _ _ Label.name _ _ _
      { label with offset := some m.nextOffset } hlabel rfl
    have hindices := @map_set_of_eq _ _ Label.index _ _ _
      { label with offset := some m.nextOffset } hlabel rfl
    refine ⟨hsound, h.params, h.locals, ?_, ?_, ?_⟩
    · show ((m.labels.set _ _).map _).Nodup
      rw [hnames]
      exact h.labels
    · intro other hother at_ hat
      rcases List.mem_or_eq_of_mem_set hother with hother | rfl
      · exact h.offsets other hother at_ hat
      · cases hat
        exact hoffset
    · intro instruction hin
      refine (h.code instruction hin).mono fun index hindex => ?_
      show index ∈ (m.labels.set _ _).map _
      rw [hindices]
      exact hindex
  · refine ⟨hsound, h.params, h.locals, nodup_map_concat h.labels hnew, ?_, ?_⟩
    · intro other hother place hplace
      rcases List.mem_append.1 hother with hother | hother
      · exact h.offsets other hother place hplace
      · rw [List.mem_singleton] at hother
        subst hother
        cases hplace
        exact hoffset
    · intro instruction hin
      refine (h.code instruction hin).mono fun index hindex => ?_
      show index ∈ (m.labels ++ [_]).map _
      rw [List.map_append]
      exact List.mem_append_left _ hindex

theorem Tidy.addInstruction (h : m.Tidy set) {form : Form}
    {scope : Scope} {file : String} {line : Nat} {args : List Argument}
    {operands : List Operand} {implicit : List String} (hform : form ∈ set.forms)
    (hread : (form.read (Parse.argumentContext scope file line m)
      args).run [] = .ok operands implicit) (hfits : operands.length ≤ UInt16.size) :
    (m.addInstruction ⟨form.opcode, operands, line⟩ implicit).Tidy set := by
  have hgives := (Form.reads_of_read hread).read
  obtain ⟨_, rfl, hnew⟩ := hgives.declares
  refine ⟨h.sound.addInstruction hfits implicit, h.params, ?_, h.labels, ?_, ?_⟩
  · show ((m.locals ++ implicit.map _).map _).Nodup
    rw [List.map_append, List.map_map, List.nodup_append]
    have hnames : implicit.map ((·.name) ∘ fun name =>
        (⟨name, TypeSpec.object⟩ : Variable)) = implicit :=
      List.map_id implicit
    rw [hnames]
    refine ⟨h.locals, hnew.nodup, ?_⟩
    rintro name hlocal _ hother rfl
    exact hnew.locals name hother hlocal
  · intro label hlabel place hplace
    exact Nat.le_succ_of_le (h.offsets label hlabel place hplace)
  · refine List.forall_mem_cons.2 ⟨?_, h.code⟩
    exact ⟨⟨form, hform, rfl, hgives.takes⟩, hgives.labels⟩

/-- A finished method is tidy. -/
theorem Tidy.finish (h : m.Tidy set) : m.finish.Tidy set where
  params := h.params
  locals := h.locals
  labels := h.labels
  indices place label hlabel := by
    have hlt := (List.getElem?_eq_some_iff.1 hlabel).1
    rw [h.sound.indices place label hlabel]
    exact UInt16.toNat_ofNat_of_lt' (Nat.lt_of_lt_of_le hlt h.sound.labels_le)
  offsets label hlabel place hplace := by
    show _ ≤ m.instructions.reverse.length
    rw [List.length_reverse, ← m.size_eq]
    exact h.offsets label hlabel place hplace
  code instruction hin := h.code instruction (List.mem_reverse.1 hin)

end OpenMethod

-- ==== types

/-- What holds of the members of every type that was read. -/
structure TidyMembers (set : InstructionSet) (fields : List Field)
    (methods : List Method) : Prop where
  fields : (fields.map (·.name)).Nodup
  methods : ∀ method ∈ methods, method.Tidy set

theorem TidyMembers.aims {fields : List Field}
    {methods others : List Method} (h : TidyMembers set fields methods)
    (haims : Method.AimsEach methods others) :
    TidyMembers set fields others := by
  refine ⟨h.fields, fun other hother => ?_⟩
  obtain ⟨method, hmethod, haims⟩ := haims other hother
  exact (h.methods method hmethod).aims haims

theorem TidyMembers.mapReferences {fields : List Field}
    {methods : List Method} (h : TidyMembers set fields methods) (f : Reference → Reference) :
    TidyMembers set (fields.map (Field.mapReference f)) (methods.map (Method.mapReferences f)) := by
  refine ⟨?_, fun _ hother => ?_⟩
  · rw [List.map_map]
    exact h.fields
  · obtain ⟨method, hmethod, rfl⟩ := List.mem_map.1 hother
    exact (h.methods method hmethod).mapReferences f

/-- What holds of every type while it is read. -/
structure OpenType.Tidy (set : InstructionSet) (t : OpenType) : Prop where
  decl : t.decl.All (TidyMembers set)
  method : ∀ m, t.method = some m → m.Tidy set

theorem TidyMembers.addMethod {fields : List Field} {methods : List Method}
    (h : TidyMembers set fields methods) (hmethod : method.Tidy set) :
    TidyMembers set fields (methods ++ [method]) := by
  refine ⟨h.fields, ?_⟩
  rw [List.forall_mem_append, List.forall_mem_singleton]
  exact ⟨h.methods, hmethod⟩

-- ==== states

namespace ParseState

variable {set : InstructionSet} {state next : ParseState} {t : OpenType} {outer : List Block}

/-- What holds of every state of a parse. -/
structure Tidy (set : InstructionSet) (state : ParseState) : Prop where
  program : state.program.All (TidyMembers set)
  opened : ∀ t, .type t ∈ state.blocks → t.Tidy set

theorem tidy_iff : state.Tidy set
    ↔ state.Keeps (TidyMembers set) (OpenMethod.Tidy set) :=
  ⟨fun h => ⟨h.program, fun t ht => ⟨(h.opened t ht).1, (h.opened t ht).2⟩⟩,
    fun h => ⟨h.program, fun t ht => ⟨(h.opened t ht).1, (h.opened t ht).2⟩⟩⟩

theorem Tidy.closeBlock (h : state.Tidy set) :
    state.closeBlock.Tidy set :=
  tidy_iff.2 ((tidy_iff.1 h).closeBlock (fun _ hm => hm.setMarks _ _ _)
    fun _ _ _ hown hm => hown.addMethod hm.finish)

/-- Every statement keeps a parse tidy. -/
theorem Effect.tidy {text : List Char} {braces : List Brace}
    (heffect : Effect set text state braces next) (htidy : state.Tidy set) :
    next.Tidy set := by
  have h := tidy_iff.1 htidy
  rw [tidy_iff]
  cases heffect with
  | close => exact tidy_iff.1 htidy.closeBlock
  | noteExternal path => exact ⟨h.program.addExternal path, h.opened⟩
  | openSpace =>
    exact .push h.program h.opened rfl fun _ => nofun
  | openType =>
    refine .push h.program h.opened rfl ?_
    rintro _ ⟨⟩
    exact ⟨.node ⟨List.nodup_nil, List.forall_mem_nil _⟩ (List.forall_mem_nil _), fun _ => nofun⟩
  | addField field htype hfresh =>
    obtain ⟨hdecl, hmethod⟩ := h.innermost htype.blocks
    refine h.putType htype.blocks rfl rfl ⟨.node ⟨?_, hdecl.own.methods⟩ hdecl.nested, hmethod⟩
    refine nodup_map_concat hdecl.own.fields ?_
    intro hmem
    obtain ⟨other, hother, hname⟩ := List.mem_map.1 hmem
    exact List.find?_eq_none.1 hfresh other hother (beq_iff_eq.2 hname)
  | @addMethod t outer method htype hhead hbodiless hfresh =>
    have htidy : method.Tidy set := by
      have hbody := hhead.body
      obtain ⟨name, attrs, _, _, _, line⟩ := method
      subst hbody
      exact ⟨⟨hhead.params, List.nodup_nil, List.nodup_nil, nofun⟩, nofun, nofun⟩
    exact h.addMethod htype.blocks rfl (by rw [← htype.method]; rfl)
      fun hown => hown.addMethod htidy
  | openMethod method htype hhead =>
    refine h.putMethod htype.blocks rfl rfl (OpenMethod.tidy_start hhead ?_)
    rw [Cursor.names_labelsAhead]
    exact nodup_labelNames _
  | openLocals line hmethod =>
    exact h.changeMethod hmethod.blocks rfl hmethod.method rfl (·.setMarks _ _ _)
  | addLocal var hlocals hfresh =>
    exact h.changeMethod hlocals.blocks rfl hlocals.method rfl (·.addLocal hfresh)
  | placeLabel name line hmethod hplaced =>
    exact h.changeMethod hmethod.blocks rfl hmethod.method rfl (·.placeLabel hplaced)
  | @addInstruction t outer m form operands implicit log scope args line hmethod hform hread hlog =>
      exact h.changeMethod hmethod.blocks rfl hmethod.method rfl
        (·.addInstruction hform hread (set.length_operands hform hread))
  | _ => exact ⟨h.program, h.opened⟩

theorem lasting_tidy (set : InstructionSet) : Lasting set (Tidy set) where
  moved := by
    rintro state _ ⟨_, _, -, rfl⟩ h
    exact ⟨h.program, h.opened⟩
  logged log h := ⟨h.program, h.opened⟩
  effect _ heffect h := heffect.tidy h
  announced := by
    intro state t outer m hmethod h
    rw [tidy_iff] at h ⊢
    exact h.changeMethod hmethod.blocks rfl hmethod.method rfl (·.setMarks _ _ _)
  skipped line h := by
    rw [tidy_iff] at h ⊢
    exact .push h.program h.opened rfl fun _ => nofun
  closed h := h.closeBlock

end ParseState

-- ==== programs

namespace Program

/-- What holds of every program that was read, together with the fixes
handed over. -/
structure Sound (set : InstructionSet) (program : Program) (fixes : List BranchFixes) : Prop where
  linkable : Linkable program.entries fixes
  listed : program.Listed
  tidy : program.All (TidyMembers set)

theorem sound_empty (set : InstructionSet) : Sound set {} [] :=
  ⟨.empty, ⟨List.nodup_nil, List.nodup_nil, fun _ => nofun⟩, fun _ => nofun⟩

/-- Whatever is read into a program, it stays sound. -/
theorem Sound.parse {program : Program} {fixes : List BranchFixes}
    (h : program.Sound set fixes) (source : String) (log : Log) :
    (program.parse set source log).program.Sound set
      (fixes ++ (program.parse set source log).output.fixes) := by
  obtain ⟨hlink, hlisted⟩ := linkable_parse set source log h.linkable h.listed
  have hstart : (ParseState.ofSource program source log).Tidy set := ⟨h.tidy, fun _ => nofun⟩
  have htidy := (ParseState.lasting_tidy set).toEnd hstart
  exact ⟨hlink, hlisted, htidy.program⟩

/-- Whether nothing in a program is named twice where names have to
differ, and no namespace is empty. -/
structure Distinct (program : Program) : Prop where
  /-- Full names, over all namespaces and nested types. -/
  types : (program.types.map (·.1)).Nodup
  fields : ∀ entry ∈ program.types, (entry.2.fields.map (·.name)).Nodup
  methods : ∀ entry ∈ program.types, (entry.2.methods.map (·.name)).Nodup
  bodies : ∀ entry ∈ program.types, ∀ method ∈ entry.2.methods, method.Distinct
  namespaces : (program.namespaces.map (·.name)).Nodup
  inhabited : ∀ space ∈ program.namespaces, space.types ≠ []
  externals : program.externals.Nodup

theorem Sound.distinct {program : Program} {fixes : List BranchFixes}
    (h : program.Sound set fixes) :
    program.Distinct where
  types := by
    have hnodup := h.linkable.nodup
    rw [entries_eq, List.map_map] at hnodup
    exact hnodup
  fields entry hentry := (h.tidy.of_types hentry).fields
  methods entry hentry := by
    have hmem : ⟨entry.1, entry.2.name, entry.2.methods⟩ ∈ program.entries := by
      rw [entries_eq]
      exact List.mem_map_of_mem hentry
    exact (h.linkable.sound _ hmem).names_nodup
  bodies entry hentry method hmethod := ((h.tidy.of_types hentry).methods method hmethod).toDistinct
  namespaces := by
    have hnames := h.listed.names_nodup
    rw [outline, List.map_map] at hnames
    exact hnames
  inhabited space hspace hnil := by
    have hsize := h.listed.sizes_ne_zero _ (List.mem_map_of_mem hspace)
    exact hsize (congrArg List.length hnil)
  externals := h.listed.externals_nodup

/-- The program that texts are read into one after the other, each with
the log it finds. -/
def parseAll (set : InstructionSet) (texts : List (String × Log)) :
    Program := texts.foldl (fun program text =>
    (program.parse set text.1 text.2).program) {}

theorem sound_parseAll (set : InstructionSet) (texts : List (String × Log)) :
    ∃ fixes, (parseAll set texts).Sound set fixes := by
  have hsound : ∀ (program : Program) (fixes : List BranchFixes),
      program.Sound set fixes → ∃ fixes, Sound set (texts.foldl
        (fun program text => (program.parse set text.1 text.2).program)
        program) fixes := by
    induction texts with
    | nil => exact fun program fixes h => ⟨fixes, h⟩
    | cons text rest ih =>
      exact fun program fixes h => ih _ _ (h.parse text.1 text.2)
  exact hsound {} [] (sound_empty set)

/-- However many texts are read into a program, and whatever they are,
names that have to differ do. -/
theorem distinct_parseAll (set : InstructionSet)
    (texts : List (String × Log)) : (parseAll set texts).Distinct := by
  obtain ⟨fixes, h⟩ := sound_parseAll set texts
  exact h.distinct

end Program

end StackAsm
