/-
Variables of a build. A method keeps its instructions and its variables
while later files are read and while its program is linked
(`Reading.Sound.exists_linked`). The writer counts variables with 16 bits,
so in a build that is written every place is a slot
(`Program.slots_of_toContainer`), and names of variables differ. So
wherever an instruction is read, its operands are the slots of the very
variables that are written (`SourceSet.variables_of_compile`).
-/
import StackAsm.Proofs.Build.Labels
import StackAsm.Proofs.Build.RootOrder
import StackAsm.Proofs.Parse.Variables

namespace StackAsm

open TypeEntry

-- ==== slots

namespace Operand

variable {vars : VariableKind → List Variable} {kind : ArgumentKind}
  {arg : Argument} {operand : Operand}

/-- Whether an operand denotes the variable that an argument means, if the
position takes a variable: of all places, the one that is meant is its
slot. -/
def Denotes (vars : VariableKind → List Variable) (kind : ArgumentKind)
    (arg : Argument) (operand : Operand) : Prop :=
  ∀ which ∈ kind.varKind?, ∃ slot, operand = .var which slot
    ∧ ∀ place, arg.Means (vars which) place ↔ place = slot.toNat

/-- If variables have different names and can be counted by slots, the
operand that has the place of one denotes it. -/
theorem Names.denotes (h : operand.Names vars kind arg)
    (hslots : ∀ which, (vars which).length < UInt16.size)
    (hnames : ∀ which, ((vars which).map (·.name)).Nodup) :
    operand.Denotes vars kind arg := by
  intro which hwhich
  obtain ⟨place, hop, hmeans⟩ := h which hwhich
  have hlt := Nat.lt_trans hmeans.1 (hslots which)
  have hslot : (UInt16.ofNat place).toNat = place := UInt16.toNat_ofNat_of_lt' hlt
  refine ⟨_, hop, fun _ => ?_⟩
  rw [hslot]
  constructor
  · exact hmeans.unique (hnames which)
  · intro hother
    rw [hother]
    exact hmeans

end Operand

namespace Program

/-- A program that is written has all its variables counted. -/
theorem slots_of_toContainer {program : Program} {style : ContainerStyle}
    {image : ContainerImage} (h : program.toContainer style = .ok image)
    {entry : String × Method} (hentry : entry ∈ program.methods) (which : VariableKind) :
    (entry.2.vars which).length < UInt16.size := by
  obtain ⟨_, _, _, hrun⟩ :=
    Container.exists_writeMethod_of_toContainer h entry hentry
  obtain ⟨_, _, _, locals, _, _, _, _, _, _, _,
    -, -, -, -, -, -, hparams, hlocals, -⟩ := Container.writeMethod_ok hrun
  cases which with
  | argument => exact hparams
  | locals => exact hlocals

end Program

-- ==== linking

namespace Reading

variable {set : InstructionSet} {reading : Reading} {full : String} {method : Method}

/-- A method that was read is there when all is linked, with its name,
its variables and its instructions. -/
theorem Sound.exists_linked (h : reading.Sound set)
    (hhas : Has reading.program.entries full method) :
    ∃ linked, Has reading.link.program.entries full linked
      ∧ linked.name = method.name
      ∧ ∀ place form args, method.ReadsAt place form args →
        linked.ReadsAt place form args := by
  let f := reading.program.declarations.settle
  have hmapped : (full, method.mapReferences f) ∈ (reading.program.mapReferences f).methods := by
    rw [Program.methods_mapReferences]
    exact List.mem_map.2 ⟨(full, method), Program.has_iff.1 hhas, rfl⟩
  obtain ⟨linked, hlinked, haim⟩ := Program.exists_aim_eq
    (Program.aim_fixBranches (Program.linkable_mapReferences f h.linkable)
      (fun _ hfix => hfix) (reading.program.resolve reading.log).2.2).symm hmapped
  have haims := Method.aims_of_aim haim.symm
  refine ⟨linked, (@Program.has_iff _ (full, linked)).2 hlinked, ?_,
    fun _ _ _ hreads => (hreads.mapReferences f).aims haims⟩
  obtain ⟨_, -, rfl⟩ := haims
  rfl

-- ==== files

/-- Files that are read later take no method away. -/
theorem has_addAll (hsound : reading.Sound set) {files : List (String × String)}
    (hclean : (reading.addAll set files).log.errorCount
      = reading.log.errorCount) (h : Has reading.program.entries full method) :
    Has (reading.addAll set files).program.entries full method := by
  induction files generalizing reading with
  | nil => exact h
  | cons file rest ih =>
    rw [addAll_cons] at hclean ⊢
    have hextends := reading.extends_add set file.1 file.2
    have hlow := hextends.errors_le
    have hhigh := (@extends_addAll set (reading.add set file.1 file.2).1 rest).errors_le
    have hread : (reading.add set file.1 file.2).1.log.errorCount
        = reading.log.errorCount := by omega
    obtain ⟨-, -, hjoined⟩ := Program.parse_alone hsound.linkable hsound.listed hread
    refine ih (hextends.sound hsound) (hclean.trans hread.symm) ?_
    obtain ⟨entry, hentry, hhas⟩ := h
    exact ⟨entry, hjoined.entries.mem_iff.2 (List.mem_append_left _ hentry), hhas⟩

end Reading

-- ==== builds

namespace SourceSet

variable {sources : SourceSet} {set : InstructionSet}
  {options : BuildOptions} {roots : List String} {built : Compiled} {log : Log}

/-- What is read of files one after the other. -/
def readFiles (sources : SourceSet) (set : InstructionSet) (log : Log)
    (files : List String) : Reading :=
  .ofFiles set log (files.map fun file => (file, sources.text file))

/-- The state in which the next statement of a file is read, behind the
files before it and after so many rounds. -/
def statementAfter (sources : SourceSet) (set : InstructionSet) (log : Log)
    (before : List String) (file : String) (rounds : Nat) : ParseState :=
  let reading := sources.readFiles set log before
  reading.program.statementAfter set (sources.text file) (reading.log.openFile file) rounds

theorem files_of_compile (h : sources.compile set options roots = .ok built) :
    built.files = (sources.readAll set roots (startLog options)).files := by
  obtain ⟨_, -, h⟩ := bind_ok_iff.1 (compile_ok_iff.1 h).2
  obtain ⟨_, -, h⟩ := bind_ok_iff.1 h
  cases h
  rfl

/-- A build is made of the files it lists. -/
theorem readAll_of_compile (h : sources.compile set options roots = .ok built) :
    sources.readAll set roots (startLog options)
      = sources.readFiles set (startLog options) built.files := by
  obtain ⟨-, _, -, -, hread⟩ := exists_walk_of_readAll
    (readAll_clean_of_link rfl (compile_ok_iff.1 h).1)
  rw [files_of_compile h, hread, readFiles, Reading.files_addAll,
    List.nil_append, List.map_map, List.map_map]
  rfl

/-- Where an instruction is read in a file that is followed by others, the
method that it is part of has it when all are read. -/
theorem exists_method_of_readFiles {before after : List String} {file : String}
    (hclean : (sources.readFiles set log (before ++ file :: after)).log.errorCount = log.errorCount)
    {rounds : Nat} {t : OpenType} {outer : List Block} {m : OpenMethod}
    (h : (sources.statementAfter set log before file rounds).AtInstruction t outer m) :
    let state := sources.statementAfter set log before file rounds
    ∃ mnemonic args accepted method, Parse.written? set state.cursor = some (mnemonic, args)
      ∧ (state.choice set t m mnemonic args).chosen = some accepted
      ∧ accepted.form.args.length = args.length
      ∧ Has (sources.readFiles set log (before ++ file :: after)).program.entries t.full method
      ∧ method.name = m.method.name
      ∧ method.ReadsAt m.size accepted.form args := by
  let reading := sources.readFiles set log before
  let added := (reading.add set file (sources.text file)).1
  have hsound : reading.Sound set := (Reading.sound_ofFiles set log _).1
  have hextends := reading.extends_add set file (sources.text file)
  have hall : sources.readFiles set log (before ++ file :: after) = added.addAll set
        (after.map fun file => (file, sources.text file)) := by
    unfold readFiles Reading.ofFiles
    rw [List.map_append, List.foldl_append]
    rfl
  rw [hall] at hclean ⊢
  -- no file reports an error, neither before nor after this one
  have hbefore := (Reading.sound_ofFiles set log (before.map fun file =>
    (file, sources.text file))).2.errorCount_le
  have hhere := hextends.errors_le
  have hafter := (@Reading.extends_addAll set added
    (after.map fun file => (file, sources.text file))).errors_le
  change log.errorCount ≤ reading.log.errorCount at hbefore
  change _ ≤ added.log.errorCount at hhere
  have hread : added.log.errorCount = reading.log.errorCount := by omega
  have hrest : (added.addAll set (after.map fun file =>
      (file, sources.text file))).log.errorCount
      = added.log.errorCount := by omega
  obtain ⟨mnemonic, args, accepted, method, hwritten, hchosen, hlength,
    hhas, hname, hreads⟩ := Program.exists_method_of_atInstruction
      hsound.linkable hsound.listed hread h
  refine ⟨mnemonic, args, accepted, method, hwritten, hchosen, hlength, ?_, hname, hreads⟩
  exact Reading.has_addAll (hextends.sound hsound) hrest hhas

/-- Variables of a build are those that are written. A build is made of the
files it lists, read in their order; and wherever an instruction is read
in one of them, its arguments are read by a form that accepts them, and
the instruction stands in its method of the program, at its place. There,
for every argument that is read as a parameter or as a local, the operand
is the slot of the one variable of the method that has the number or the
name that is written. -/
theorem variables_of_compile (h : sources.compile set options roots = .ok built) :
    sources.readAll set roots (startLog options)
        = sources.readFiles set (startLog options) built.files
      ∧ ∀ before file after, built.files = before ++ file :: after → ∀ rounds t outer m,
        let state := sources.statementAfter set (startLog options) before file rounds
        state.AtInstruction t outer m →
        ∃ mnemonic args accepted method instruction,
          Parse.written? set state.cursor = some (mnemonic, args)
          ∧ (state.choice set t m mnemonic args).chosen = some accepted
          ∧ (t.full, method) ∈ built.program.methods ∧ method.name = m.method.name
          ∧ method.body.instructions[m.size]? = some instruction
          ∧ instruction.opcode = accepted.form.opcode ∧ accepted.form.args.length = args.length
          ∧ List.Forall₂ (fun position operand =>
            Operand.Denotes method.vars position.1 position.2 operand)
            (accepted.form.args.zip args) instruction.operands := by
  have hfiles := readAll_of_compile h
  obtain ⟨hlinked, hwrite⟩ := compile_ok_iff.1 h
  have hclean := readAll_clean_of_link rfl hlinked
  have hsound := (sources.extends_readAll set roots
    (startLog options)).sound (Reading.sound_empty set _)
  have htidy := (hsound.link (hlinked.trans hclean.symm)).tidy
  obtain ⟨image, himage, hwrite⟩ := bind_ok_iff.1 hwrite
  obtain ⟨names, -, hwrite⟩ := bind_ok_iff.1 hwrite
  cases hwrite
  refine ⟨hfiles, fun before file after hsplit rounds t outer m => ?_⟩
  intro state hstate
  rw [hfiles, hsplit] at hclean
  obtain ⟨mnemonic, args, accepted, method, hwritten, hchosen, hlength,
    hhas, hname, hreads⟩ := exists_method_of_readFiles hclean hstate
  rw [← hsplit, ← hfiles] at hhas
  obtain ⟨linked, hhas, hsame, hlinks⟩ := hsound.exists_linked hhas
  obtain ⟨instruction, hplace, hopcode, hnames⟩ := hlinks _ _ _ hreads
  have hmem := (@Program.has_iff _ (t.full, linked)).1 hhas
  refine ⟨mnemonic, args, accepted, linked, instruction, hwritten, hchosen,
    hmem, hsame.trans hname, hplace, hopcode, hlength, ?_⟩
  obtain ⟨fields, methods, hmembers, hmethod⟩ := htidy.of_methods hmem
  have hdistinct := (hmembers.methods linked hmethod).toDistinct
  have hcounted := Program.slots_of_toContainer himage hmem
  refine hnames.imp fun position operand hoperand =>
    hoperand.denotes hcounted fun which => ?_
  cases which with
  | argument => exact hdistinct.params
  | locals => exact hdistinct.locals

end SourceSet

namespace Sample

/-- A method with a block of locals, and one that declares its locals by
storing to them. -/
def storing : SourceTexts :=
  .ofFiles [("a.casm", ".type A \x7b\n.method m(a: i32, b: i32) \x7b\n"
    ++ ".locals \x7b x: i32, y: i32 \x7d\nldrg b\nstlc 1\n\x7d\n"
    ++ ".method n() \x7b\nstlc first\nstlc second\nldlc first\n\x7d\n"
    ++ "\x7d\n")]

/-- The sample is linked, and its second store is read after twelve
rounds. -/
theorem read_storing :
    let reading := storing.sources.readAll .standard ["a.casm"] {}
    let state := storing.sources.statementAfter .standard {} [] "a.casm" 12
    (reading.link.log.errorCount = 0 ∧ reading.link.program.Sized
      ∧ reading.link.program.texts.length < UInt32.size
      ∧ reading.files = ["a.casm"])
    ∧ (state.readsBody = true ∧ state.cursor.atEnd = false
      ∧ state.cursor.peek? ≠ some '\x7d' ∧ state.cursor.peek? ≠ some '.'
      ∧ state.cursor.atLabel = false ∧ Parse.written? .standard state.cursor
        = some ("stlc", [⟨.name "second" 0, 6⟩]))
    ∧ ∀ form ∈ InstructionSet.candidates .standard "stlc" 1, form.args = [.localStore] := by
  rw [storing.sources_eq_ofList, SourceSet.readAll_eq_rounds]
  refine ⟨?_, ?_, ?_⟩
  all_goals decide +kernel

/-- The second store declares a local behind the one that is declared
before, and its operand is the slot of that local. -/
theorem variables_of_compile_storing :
    ∃ built, storing.sources.compile .standard { omitDebugNames := true } ["a.casm"] = .ok built
      ∧ ∃ t outer m, (storing.sources.statementAfter .standard {} []
          "a.casm" 12).AtInstruction t outer m
        ∧ ∃ method instruction slot, (t.full, method) ∈ built.program.methods
          ∧ method.body.instructions[m.size]? = some instruction
          ∧ instruction.operands = [.var .locals slot]
          ∧ ∀ place, Argument.Means ⟨.name "second" 0, 6⟩
            method.body.locals place ↔ place = slot.toNat := by
  obtain ⟨⟨hlinked, hsized, htexts, hread⟩,
    ⟨hbody, hmore, hbrace, hdot, hlabel, hwritten⟩, hstores⟩ := read_storing
  obtain ⟨built, hbuilt⟩ := SourceSet.exists_compile_of_sized hlinked hsized htexts
  obtain ⟨t, outer, m, hmethod⟩ := ParseState.exists_inMethod hbody
  have hfiles : built.files = [] ++ "a.casm" :: [] :=
    (SourceSet.files_of_compile hbuilt).trans hread
  have hat : (storing.sources.statementAfter .standard {} [] "a.casm"
      12).AtInstruction t outer m := ⟨hmethod, hmore, hbrace, hdot, hlabel⟩
  obtain ⟨mnemonic, args, accepted, method, instruction, hsame, hchosen,
    hmem, -, hplace, -, -, hoperands⟩ :=
      (SourceSet.variables_of_compile hbuilt).2 [] "a.casm" [] hfiles 12 t outer m hat
  change Parse.written? .standard (storing.sources.statementAfter .standard
    {} [] "a.casm" 12).cursor = _ at hsame
  rw [hwritten] at hsame
  cases hsame
  rw [hstores _ (Parse.chosen_ofForms hchosen).1] at hoperands
  obtain ⟨opcode, operands, line⟩ := instruction
  cases hoperands with
  | cons hoperand hrest =>
    cases hrest
    obtain ⟨slot, rfl, hmeans⟩ := hoperand .locals rfl
    exact ⟨built, hbuilt, t, outer, m, hat, method, _, slot, hmem, hplace, rfl, hmeans⟩

end Sample

end StackAsm
