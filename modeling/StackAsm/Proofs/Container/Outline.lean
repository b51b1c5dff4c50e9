/-
The outline of a container, and its program. Two readers go over the same
bytes. The reader of programs looks into everything. The reader of
outlines passes over code and labels by their length and takes parameters
and locals together. It still has to come to the end of every record at
the same place.

`Follows` says of two readers that the second keeps up with the first:
wherever the first ends well, the second ends well at the same place of
the input, with an answer that belongs to the first's. Parts that both
readers have in common keep up with themselves, so what is left to show
lies in methods: the sizes of variables, code and labels
(`follows_readMethod`).
-/
import StackAsm.Container.Outline
import StackAsm.Proofs.Container.Truncation

namespace StackAsm

open Decode

namespace Decode

variable {α α' β β' : Type}

-- ==== the relation

/-- Wherever `full` ends well, `skim` ends well at the same place, and
their answers are so related. -/
def Follows (full : Decode α) (skim : Decode β) (R : α → β → Prop) : Prop :=
  ∀ input value later, full.run input = .ok value later →
    ∃ answer, skim.run input = .ok answer later ∧ R value answer

section Relation

variable {full : Decode α} {skim : Decode β} {next : α → Decode α'}
  {next' : β → Decode β'} {R : α → β → Prop} {S : α' → β' → Prop}

theorem follows_pure {value : α} {answer : β} (h : R value answer) :
    Follows (pure value) (pure answer) R := by
  intro input other later hrun
  obtain ⟨rfl, rfl⟩ := run_pure_ok_iff.1 hrun
  exact ⟨answer, run_pure_ok_iff.2 ⟨rfl, rfl⟩, h⟩

theorem follows_invalid (detail : FormatDetail) : Follows (invalid detail : Decode α) skim R := by
  intro input value later hrun
  cases hrun

theorem Follows.bind (hfirst : Follows full skim R)
    (hnext : ∀ a b, R a b → Follows (next a) (next' b) S) :
    Follows (full >>= next) (skim >>= next') S := by
  intro input value later hrun
  obtain ⟨a, middle, ha, hrun⟩ := run_bind_ok_iff.1 hrun
  obtain ⟨b, hb, hR⟩ := hfirst input a middle ha
  obtain ⟨answer, hanswer, hS⟩ := hnext a b hR middle value later hrun
  refine ⟨answer, ?_, hS⟩
  rw [run_bind_of_ok hb]
  exact hanswer

theorem Follows.map (h : Follows full skim R) {f : α → α'} {g : β → β'}
    (himp : ∀ a b, R a b → S (f a) (g b)) :
    Follows (full >>= fun a => pure (f a)) (skim >>= fun b => pure (g b)) S :=
  h.bind fun a b hR => follows_pure (himp a b hR)

/-- A reader keeps up with itself. -/
theorem follows_refl (read : Decode α) : Follows read read Eq :=
  fun _ value _ hrun => ⟨value, hrun, rfl⟩

/-- Two readers that begin with the same part differ in what follows at
most. -/
theorem follows_same {read : Decode β} {next : β → Decode α}
    {S : α → β' → Prop} (hnext : ∀ b, Follows (next b) (next' b) S) :
    Follows (read >>= next) (read >>= next') S := by
  refine (follows_refl read).bind ?_
  rintro b _ rfl
  exact hnext b

end Relation

theorem follows_times {full : Nat → Decode α} {skim : Nat → Decode β}
    {R : α → β → Prop} (h : ∀ i, Follows (full i) (skim i) R) (count : Nat) :
    Follows (times count full) (times count skim) (List.Forall₂ R) := by
  induction count generalizing full skim with
  | zero => exact follows_pure .nil
  | succ count ih =>
    rw [times_succ, times_succ]
    refine (h 0).bind fun _ _ hR => ?_
    exact (ih fun i => h (i + 1)).map fun _ _ hrest => .cons hR hrest

/-- Reading some records and then more is reading all of them. -/
theorem times_add (read : Decode α) (m n : Nat) : (times (m + n) fun _ => read) = (do
      let front ← times m fun _ => read
      let back ← times n fun _ => read
      return front ++ back) := by
  induction m with
  | zero =>
    have hnone : (times 0 fun _ => read) = pure [] := rfl
    simp only [Nat.zero_add, hnone, pure_bind, List.nil_append, bind_pure]
  | succ m ih =>
    rw [Nat.succ_add, times_succ, times_succ, ih]
    simp only [bind_assoc, pure_bind, List.cons_append]

/-- Bytes of a known number can be passed over. -/
theorem follows_exact {read : Decode α} {size : Nat} {G : α → Prop}
    (h : read.Yields fun bytes value => bytes.length = size ∧ G value)
    (what : String) : Follows read (exact size what) fun value _ => G value := by
  intro input value later hrun
  obtain ⟨bytes, hbytes, hlength, hG⟩ := h.took hrun
  refine ⟨bytes, run_exact_ok_iff.2 ⟨hlength, hbytes, h.chunk_eq hrun, ?_⟩, hG⟩
  have hposition := h.position_eq hrun
  rw [hbytes, List.length_append] at hposition
  omega

end Decode

-- ==== outlines

/-- The outline has the names and the sizes of the method. -/
structure MethodOutline.Describes (outline : MethodOutline) (method : Method) : Prop where
  name : outline.name = method.name
  params : outline.params.toNat = method.params.length
  locals : outline.locals.toNat = method.body.locals.length
  instructions : outline.instructions.toNat = method.body.instructions.length
  codeBytes : outline.codeBytes.toNat = (method.body.instructions.map Instruction.width).sum
  labels : outline.labels = method.body.labels.length

/-- The outline is that of the type with that full name, types nested in
it left out. -/
structure TypeOutline.Describes (outline : TypeOutline) (entry : String × TypeDecl) : Prop where
  name : outline.name = entry.1
  attrs : outline.attrs = entry.2.attrs.bits
  fields : outline.fields = entry.2.fields.map (·.name)
  methods : List.Forall₂ MethodOutline.Describes outline.methods entry.2.methods

namespace Outline

open Container

-- ==== methods

section Methods

variable {method : String}

variable {source : Source} (hheap : source.heap.Storable)

theorem follows_readParam (heap : StringHeap) (method : String) :
    Follows (readParam heap method) (readVariable heap) fun _ _ => True := by
  intro input var later hrun
  obtain ⟨⟨name, _⟩, _, hvar, hrun⟩ := run_bind_ok_iff.1 hrun
  cases name with
  | none => cases hrun
  | some =>
    obtain ⟨-, rfl⟩ := run_pure_ok_iff.1 hrun
    exact ⟨_, hvar, trivial⟩

theorem follows_readLocal (heap : StringHeap) (names : Option NameTables) (slot : UInt16) :
    Follows (readLocal heap names slot) (readVariable heap) fun _ _ => True := by
  intro input var later hrun
  obtain ⟨⟨_, _⟩, hvar, -⟩ := run_bind_pure_ok_iff.1 hrun
  exact ⟨_, hvar, trivial⟩

include hheap

/-- Parameters and locals may be read together, and the input is long
enough for all of them. -/
theorem follows_variables {α β : Type} {S : α → β → Prop}
    {params locals : Nat} {names : Option NameTables}
    {next : List Variable → List Variable → Decode α} {skim : Decode β} (fault : FormatFault)
    (hnext : ∀ front back, front.length = params → back.length = locals →
      Follows (next front back) skim S) :
    Follows (do
        let front ← times params fun _ => readParam source.heap method
        let back ← times locals fun slot =>
          readLocal source.heap names (UInt16.ofNat slot)
        next front back)
      (do
        if isShorter (← get).rest ((params + locals) * variableSize) then
          throw fault
        let _ ← times (params + locals) fun _ => readVariable source.heap
        skim) S := by
  intro input value later hrun
  obtain ⟨front, _, hfront, hrun⟩ := run_bind_ok_iff.1 hrun
  obtain ⟨back, last, hback, hrun⟩ := run_bind_ok_iff.1 hrun
  obtain ⟨_, hrest, hparts, hparams⟩ :=
    (yields_times (fun _ => yields_readParam hheap method) params).took hfront
  obtain ⟨_, hrest', hparts', hlocals⟩ :=
    (yields_times (fun _ => yields_readLocal hheap names _) locals).took hback
  -- The variables were all read, so there were bytes enough for them.
  have hlong : isShorter input.rest ((params + locals) * variableSize) = false := by
    have hsize := hparts.length_eq_mul fun _ _ h => h.1
    have hsize' := hparts'.length_eq_mul fun _ _ h => h.1
    rw [isShorter_eq, decide_eq_false_iff_not, hrest, hrest',
      List.length_append, List.length_append, hsize, hsize', hparams, hlocals, Nat.add_mul]
    omega
  obtain ⟨first, hfirst, -⟩ := follows_times (fun _ => follows_readParam source.heap method) params
      _ _ _ hfront
  obtain ⟨second, hsecond, -⟩ :=
    follows_times (fun _ => follows_readLocal source.heap names _) locals _ _ _ hback
  have hvars : (times (params + locals) fun _ =>
      readVariable source.heap).run input = .ok (first ++ second) last := by
    rw [times_add, run_bind_of_ok hfirst, run_bind_of_ok hsecond]
    rfl
  obtain ⟨answer, hanswer, hS⟩ := hnext front back hparams hlocals last value later hrun
  refine ⟨answer, ?_, hS⟩
  rw [run_get_bind]
  simp only [hlong, Bool.false_eq_true, if_false]
  rw [run_bind_of_ok hvars]
  exact hanswer

/-- What it means that code was read: its size, its bytes, and as many
instructions in these as were announced. -/
theorem readCode_ok {input later : ByteInput} {instructions : List Instruction} {offsets : List Nat}
    (h : (source.readCode method).run input
      = .ok (instructions, offsets) later) :
    ∃ declared size code middle last, word32.run input = .ok declared middle
      ∧ word32.run middle = .ok size last
      ∧ (exact size.toNat "method code").run last = .ok code later
      ∧ InParts (Instruction.Stored source.set) code instructions
      ∧ instructions.length = declared.toNat
      ∧ offsets.length = instructions.length + 1 := by
  obtain ⟨declared, middle, hdeclared, h⟩ := run_bind_ok_iff.1 h
  obtain ⟨size, last, hsize, h⟩ := run_bind_ok_iff.1 h
  obtain ⟨code, _, hcode, h⟩ := run_bind_ok_iff.1 h
  split at h
  · cases h
  rename_i placed hplaced
  split at h
  · cases h
  rename_i hcount
  obtain ⟨hout, rfl⟩ := run_pure_ok_iff.1 h
  injection hout with hinstructions hoffsets
  subst hinstructions hoffsets
  refine ⟨declared, size, code, middle, last, hdeclared, hsize, hcode,
    InstructionSet.inParts_of_decodeCode hheap hplaced, ?_, ?_⟩
  · rw [List.length_map]
    exact Decidable.not_not.1 hcount
  · rw [List.length_append, List.length_map, List.length_map]
    rfl

/-- Code may be passed over: the size in front of it is the size of its
instructions, of which there are as many as are announced. -/
theorem follows_code {α β : Type} {S : α → β → Prop} {next : List Instruction × List Nat → Decode α}
    {skim : UInt32 → UInt32 → Decode β}
    (hnext : ∀ instructions offsets declared size, instructions.length = declared.toNat →
      (instructions.map Instruction.width).sum = size.toNat →
      offsets.length = instructions.length + 1 →
      Follows (next (instructions, offsets)) (skim declared size) S) :
    Follows (source.readCode method >>= next) (do
        let declared ← word32
        let size ← word32
        let _ ← exact size.toNat "method code"
        skim declared size) S := by
  intro input value later hrun
  obtain ⟨⟨instructions, offsets⟩, middle, hcode, hrun⟩ := run_bind_ok_iff.1 hrun
  obtain ⟨declared, size, _, _, _, hdeclared, hsize, hbytes,
    hparts, hcount, hoffsets⟩ := readCode_ok hheap hcode
  have hwidth : (instructions.map Instruction.width).sum = size.toNat := by
    rw [← hparts.length_eq fun _ _ h => h.width]
    exact (run_exact_ok_iff.1 hbytes).1
  obtain ⟨answer, hanswer, hS⟩ := hnext instructions offsets declared size
    hcount hwidth hoffsets middle value later hrun
  refine ⟨answer, ?_, hS⟩
  rw [run_bind_of_ok hdeclared, run_bind_of_ok hsize, run_bind_of_ok hbytes]
  exact hanswer

theorem follows_labels (names : Option NameTables) (method : String)
    {offsets : List Nat} (hoffsets : offsets.length ≤ UInt32.size) (count : Nat) :
    Follows (times count fun _ =>
        readLabel source.heap names method (placeTable offsets))
      (exact (count * labelSize) "labels")
      fun labels _ => labels.length = count := by
  refine follows_exact ((yields_times (fun _ =>
    yields_readLabel hheap names method hoffsets) count).imp ?_) _
  rintro _ _ ⟨hparts, hcount⟩
  refine ⟨?_, hcount⟩
  rw [hparts.length_eq_mul fun _ _ h => h.1, hcount]

theorem follows_readMethod (owner : String) :
    Follows (source.readMethod owner) (readMethod source.heap)
      fun method outline => outline.Describes method := by
  refine follows_same fun _ => ?_
  refine follows_same fun _ => ?_
  refine follows_same fun _ => ?_
  refine follows_same fun _ => ?_
  refine follows_same fun _ => ?_
  refine follows_variables hheap _ fun _ _ hparams hlocals => ?_
  refine follows_code hheap fun code offsets declared _ hcount hwidth _ => ?_
  refine follows_same fun labelCount => ?_
  have hplaces : offsets.length ≤ UInt32.size := by
    have hlt : declared.toNat < UInt32.size := declared.toNat_lt
    omega
  refine (follows_labels hheap _ _ hplaces labelCount).bind fun _ _ hlabels => ?_
  split
  · exact follows_invalid _
  rename_i body haim
  have hunaimed := unaimed_of_aim haim
  obtain ⟨aimed, -, rfl⟩ := aim_ok haim
  -- Aiming the branches changes neither the number of instructions nor
  -- their widths.
  have hlength : aimed.length = code.length := by
    simpa using congrArg List.length hunaimed
  have hwidths : aimed.map Instruction.width = code.map Instruction.width := by
    have hviews := congrArg (List.map Instruction.width) hunaimed
    simpa [Function.comp_def, Instruction.width_unaimed] using hviews
  refine follows_pure ⟨rfl, hparams.symm, hlocals.symm, ?_, ?_, hlabels.symm⟩
  · rw [hlength]
    exact hcount.symm
  · rw [hwidths]
    exact hwidth.symm

end Methods

-- ==== types

/-- The outline of a member, where a nested type comes with all in it. -/
inductive Member.Describes (full : String) : Outline.Member → Source.Member → Prop where
  | field (item : Field) : Describes full (.field item.name) (.field item)
  | method {outline : MethodOutline} {item : Method} (h : outline.Describes item) :
      Describes full (.method outline) (.method item)
  | nested {types : List TypeOutline} {item : TypeDecl}
      (h : List.Forall₂ TypeOutline.Describes types (item.walk full)) :
      Describes full (.nested types) (.nested item)

/-- A member goes to the same part of its type in both readings. -/
theorem describes_gather {name outer : String} {attrs : UInt16}
    {members : List Source.Member} {outlines : List Member}
    (h : List.Forall₂ (fun member outline =>
      Member.Describes (Text.join outer name) outline member) members outlines) :
    List.Forall₂ TypeOutline.Describes (gather (Text.join outer name) attrs outlines)
      ((Source.gather name attrs members).walk outer) := by
  induction h with
  | nil => exact .cons ⟨rfl, rfl, rfl, .nil⟩ .nil
  | cons hmember hrest ih =>
    obtain ⟨hown, hnested⟩ := List.forall₂_cons.1 ih
    cases hmember with
    | field item =>
      exact .cons ⟨hown.name, hown.attrs,
        congrArg (item.name :: ·) hown.fields, hown.methods⟩ hnested
    | method hmethod =>
      exact .cons ⟨hown.name, hown.attrs, hown.fields, .cons hmethod hown.methods⟩ hnested
    | nested htypes =>
      exact .cons ⟨hown.name, hown.attrs, hown.fields, hown.methods⟩
        (List.rel_append htypes hnested)

section Types

variable {source : Source} (hheap : source.heap.Storable)

theorem follows_readField :
    Follows source.readField (readField source.heap) fun field name => name = field.name :=
  follows_same fun _ => follows_same fun _ => follows_same fun _ =>
    follows_pure rfl

include hheap

theorem follows_readType (outer : String) (depth : Nat) :
    Follows (source.readType outer depth) (readType source.heap outer depth) fun type outlines =>
        List.Forall₂ TypeOutline.Describes outlines (type.walk outer) := by
  induction depth generalizing outer with
  | zero => exact follows_invalid _
  | succ depth ih =>
    refine follows_same fun _ => ?_
    refine follows_same fun _ => ?_
    refine follows_same fun count => ?_
    refine (follows_times (fun _ => ?_) count).map
      fun _ _ hmembers => describes_gather hmembers
    -- Both readers turn on the same byte in front of a member.
    refine follows_same fun segment => ?_
    cases segment with
    | field =>
      refine follows_readField.map ?_
      rintro field _ rfl
      exact .field field
    | method =>
      exact (follows_readMethod hheap _).map fun _ _ h => .method h
    | _ => exact (ih _).map fun _ _ h => .nested h

end Types

-- ==== declarations

/-- The outline of a declaration; a namespace is only listed by its
types. -/
inductive Declaration.Describes : Outline.Declaration → Source.Declaration → Prop where
  | external (path : String) : Describes (.external path) (.external path)
  | typeAlias (entry : TypeAlias) : Describes (.typeAlias entry) (.typeAlias entry)
  | types {outlines : List TypeOutline} {name : String} {types : List TypeDecl}
      (h : List.Forall₂ TypeOutline.Describes outlines (TypeDecl.walkAll name types)) :
      Describes (.types outlines) (.space name types)

theorem follows_readDeclaration {source : Source} (hheap : source.heap.Storable) :
    Follows source.readDeclaration (readDeclaration source.heap)
      fun declaration outline => outline.Describes declaration := by
  refine follows_same fun segment => ?_
  have hspace : Follows source.readNamespace (do
        let name ← Decode.string
        let count ← Decode.count32 segmentSize "namespace types"
        let types ← Decode.times count fun _ => do
          Segment.expect "a namespace" .type
          readType source.heap name depthLimit
        return Declaration.types types.flatten)
      fun declaration outline => outline.Describes declaration := by
    refine follows_same fun name => ?_
    refine follows_same fun count => ?_
    refine (follows_times (fun _ => follows_same fun _ =>
      follows_readType hheap name depthLimit) count).map ?_
    intro types outlines htypes
    refine .types ?_
    induction htypes with
    | nil => exact .nil
    | cons htype hrest ih => exact List.rel_append htype ih
  cases segment with
  | external => exact follows_same fun path => follows_pure (.external path)
  | typeAlias =>
    exact follows_same fun entry => follows_pure (.typeAlias entry)
  | _ => exact hspace

-- ==== whole containers

/-- A namespace without types is declared, but not in the program. -/
theorem names_sublist (declarations : List Source.Declaration) :
    List.Sublist ((declarations.filterMap Source.Declaration.space?).map (·.name))
      (declarations.filterMap Source.Declaration.spaceName?) := by
  induction declarations with
  | nil => exact .slnil
  | cons declaration rest ih =>
    cases declaration with
    | external => exact ih
    | typeAlias => exact ih
    | space name types =>
      cases types with
      | nil => exact ih.cons _
      | cons => exact ih.cons_cons _

/-- What the outline lists is declared, in the same order. -/
theorem describes_assemble {declarations : List Source.Declaration}
    {outlines : List Declaration} (header : Header)
    (h : List.Forall₂ (fun declaration outline =>
      Declaration.Describes outline declaration) declarations outlines) :
    (assemble header outlines).externals = declarations.filterMap Source.Declaration.external?
      ∧ (assemble header outlines).aliases
        = (declarations.filterMap Source.Declaration.typeAlias?).map
          (fun entry => (entry.name, entry.target.display))
      ∧ List.Forall₂ TypeOutline.Describes (assemble header outlines).types
        ((declarations.filterMap Source.Declaration.space?).flatMap
          fun space => TypeDecl.walkAll space.name space.types) := by
  induction h with
  | nil => exact ⟨rfl, rfl, .nil⟩
  | cons hfirst hrest ih =>
    obtain ⟨hexternals, haliases, htypes⟩ := ih
    cases hfirst with
    | external path =>
      exact ⟨congrArg (path :: ·) hexternals, haliases, htypes⟩
    | typeAlias =>
      exact ⟨hexternals, congrArg (_ :: ·) haliases, htypes⟩
    | @types outlines name types hspace =>
      refine ⟨hexternals, haliases, ?_⟩
      cases types with
      | nil =>
        cases hspace
        exact htypes
      | cons => exact List.rel_append hspace htypes

theorem run_read_of_readDeclarations {set : InstructionSet}
    {names : Option DebugNames} {input later : ByteInput} {declarations : List Source.Declaration}
    (h : (readDeclarations set names).run input = .ok declarations later)
    (hrest : later.rest = []) :
    ∃ header outlines, read.run input = .ok (assemble header outlines) later
      ∧ List.Forall₂ (fun declaration outline =>
        Declaration.Describes outline declaration) declarations outlines := by
  obtain ⟨header, _, hheader, h⟩ := run_bind_ok_iff.1 h
  obtain ⟨count, _, hcount, h⟩ := run_bind_ok_iff.1 h
  obtain ⟨-, -, hheap⟩ := yields_readHeader.took hheader
  obtain ⟨outlines, houtlines, hdescribes⟩ :=
    follows_times (fun _ => follows_readDeclaration hheap) count _ _ _ h
  refine ⟨header, outlines, ?_, hdescribes⟩
  unfold read
  rw [run_bind_of_ok hheader, run_bind_of_ok hcount, run_bind_of_ok houtlines]
  refine run_bind_ok_iff.2 ⟨(), later, ?_, rfl⟩
  rw [run_finish, if_pos hrest]

/-- Whatever holds a program has an outline. If no external and no
namespace is declared twice, the outline lists the externals, the aliases
and the types of the program as they are. -/
theorem describes_of_ofContainer {set : InstructionSet}
    {names : Option DebugNames} {bytes : List UInt8} {program : Program}
    (h : Program.ofContainer set names bytes = .ok program) :
    ∃ outline, Outline.ofContainer bytes = .ok outline
      ∧ (((declared set names bytes).filterMap Source.Declaration.external?).Nodup →
        ((declared set names bytes).filterMap Source.Declaration.spaceName?).Nodup →
        outline.externals = program.externals
          ∧ outline.aliases = program.aliases.map (fun entry => (entry.name, entry.target.display))
          ∧ List.Forall₂ TypeOutline.Describes outline.types
            program.types) := by
  obtain ⟨⟨later, hrun, hrest⟩, rfl⟩ := declared_of_ofContainer h
  obtain ⟨header, outlines, hread, hdescribes⟩ := run_read_of_readDeclarations hrun hrest
  obtain ⟨hexternals, haliases, htypes⟩ := describes_assemble header hdescribes
  refine ⟨assemble header outlines, ?_, fun hnodup hspaces => ?_⟩
  · unfold Outline.ofContainer
    rw [hread]
  · have hnames : (((declared set names bytes).filterMap
        Source.Declaration.space?).map (·.name)).Nodup := hspaces.sublist (names_sublist _)
    refine ⟨?_, haliases, ?_⟩
    · rw [hexternals]
      exact (eraseDups_of_nodup hnodup).symm
    · unfold Source.assemble Program.types
      rw [mergeNamespaces_of_nodup hnames]
      exact htypes

end Outline

/-- The outline of the sample lists its two types, the nested one behind
the one around it. -/
theorem Sample.describes_program :
    ∃ image outline, program.toContainer ⟨instructionSet, false⟩ = .ok image
      ∧ Program.ofContainer instructionSet none image.bytes
        = .ok program.forgetLines
      ∧ Outline.ofContainer image.bytes = .ok outline
      ∧ outline.externals = ["Sys"] ∧ outline.aliases = [("none", "void")]
      ∧ List.Forall₂ TypeOutline.Describes outline.types program.forgetLines.types
      ∧ program.forgetLines.types.map (·.1)
        = ["App.Main", "App.Main.Inner"] := by
  obtain ⟨image, himage⟩ := toContainer_program false
  have hread := Container.ofContainer_of_loadable himage regular_program
    (loadable_program false) none
  rw [ContainerStyle.programRead_eq_mapMembers fun entry _ =>
    ContainerStyle.methodRead_of_kept rfl _ entry.2] at hread
  have hrun := Container.run_readDeclarations_of_loadable
    himage regular_program (loadable_program false) none
  obtain ⟨outline, houtline, hlists⟩ := Outline.describes_of_ofContainer hread
  rw [Container.declared_of_run hrun] at hlists
  obtain ⟨hexternals, haliases, htypes⟩ := hlists (by decide) (by decide)
  exact ⟨image, outline, himage, hread, houtline, hexternals, haliases, htypes, by decide⟩

end StackAsm
