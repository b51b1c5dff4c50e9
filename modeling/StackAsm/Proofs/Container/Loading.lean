/-
What reading makes sure of. A container that is read may come from
anywhere, but the program in it is one that could have been written:
every opcode is known and its operands suit it, every reference is
resolved, labels lie in the code and branches go to them, nothing is
longer or deeper than the format allows, and there are no lines
(`Method.Loaded`, `TypeDecl.Loaded`, `Program.Loaded`).

Without debug names all texts of the program come from the container, and
it has room for their indices (`Program.holds_of_ofContainer`).
-/
import StackAsm.Proofs.Container.Stored

namespace StackAsm

open Decode

-- ==== methods

/-- What reading makes sure of for every method. -/
structure Method.Loaded (set : InstructionSet) (method : Method) : Prop where
  writable : method.Writable set
  aimed : method.body.Aimed
  sized : method.Sized
  line : method.line = 0
  lines : ∀ instruction ∈ method.body.instructions, instruction.line = 0

namespace Container

/-- A method whose parts were read. -/
theorem loaded_of_aim {set : InstructionSet} {bytes : List UInt8}
    {offsets : List Nat} {name : String} {attrs : Attributes}
    {result : TypeSpec} {params : List Variable} {body aimed : MethodBody}
    (hcode : StoredCode set bytes body.instructions offsets)
    (hresult : result.reference.isPending = false)
    (hvars : ∀ var ∈ params ++ body.locals, var.type.reference.isPending = false)
    (hparams : params.length < UInt16.size) (hlocals : body.locals.length < UInt16.size)
    (hlabels : body.labels.length < UInt16.size)
    (hplaces : ∀ label ∈ body.labels, ∃ place, label.offset = some place
      ∧ place.toNat < offsets.length) (haim : aim body = .ok aimed) :
    Method.Loaded set { name, attrs, result, params, body := aimed } := by
  have hunaimed := unaimed_of_aim haim
  have hlines := lines_of_aim haim
  have haimed := aimed_of_aim haim
  obtain ⟨code, -, rfl⟩ := aim_ok haim
  -- Each instruction looks like one that was stored.
  have hstored : ∀ instruction ∈ code, instruction.Writable set := by
    intro instruction hin
    have hview : instruction.unaimed ∈ body.instructions.map Instruction.unaimed := by
      rw [← hunaimed]
      exact List.mem_map.2 ⟨instruction, hin, rfl⟩
    obtain ⟨stored, hmem, hsame⟩ := List.mem_map.1 hview
    exact (hcode.writable stored hmem).of_unaimed hsame.symm
  have hlength : code.length = body.instructions.length := by
    simpa using congrArg List.length hunaimed
  refine ⟨⟨?_, fun instruction h => (hstored instruction h).form, ?_⟩,
    haimed, ⟨hparams, hlocals, hlabels, ?_, ?_⟩, rfl, ?_⟩
  · intro reference href
    rcases List.mem_append.1 href with href | href
    · rcases List.mem_cons.1 href with rfl | href
      · exact hresult
      · obtain ⟨var, hvar, rfl⟩ := List.mem_map.1 href
        exact hvars var hvar
    · obtain ⟨instruction, hin, href⟩ := List.mem_flatMap.1 href
      exact (hstored instruction hin).references _ href
  · intro label hlabel
    obtain ⟨place, hoffset, _⟩ := hplaces label hlabel
    refine ⟨place, hoffset, ?_⟩
    have hoffsets := hcode.offsets_eq
    show place.toNat ≤ code.length
    omega
  · show code.length < UInt32.size
    rw [hlength]
    exact hcode.instructions_lt
  · have hwidths : ∀ instructions : List Instruction, instructions.map Instruction.width
          = (instructions.map Instruction.unaimed).map
            Instruction.width := by
      intro instructions
      simp only [List.map_map, Function.comp_def, Instruction.width_unaimed]
    show (code.map Instruction.width).sum < UInt32.size
    rw [hwidths, hunaimed, ← hwidths]
    exact hcode.code_lt
  · intro instruction hin
    have hview : instruction.line ∈ body.instructions.map (·.line) := by
      rw [← hlines]
      exact List.mem_map.2 ⟨instruction, hin, rfl⟩
    obtain ⟨stored, hmem, hsame⟩ := List.mem_map.1 hview
    rw [← hsame]
    exact hcode.lines stored hmem

theorem texts_of_aim {body aimed : MethodBody} (haim : aim body = .ok aimed) :
    aimed.instructions.flatMap Instruction.texts = body.instructions.flatMap Instruction.texts := by
  have hviews : ∀ instructions : List Instruction, instructions.flatMap Instruction.texts
        = (instructions.map Instruction.unaimed).flatMap
          Instruction.texts := by
    intro instructions
    simp only [List.flatMap_map, Instruction.texts_unaimed]
  rw [hviews, unaimed_of_aim haim, ← hviews]

namespace Source

variable (source : Source)

/-- No method has debug names. -/
def Unnamed : Prop := ∀ full, source.names.get? full = none

theorem yields_readMethod (hheap : source.heap.Storable) (owner : String) :
    (source.readMethod owner).Yields fun bytes method =>
      method.Loaded source.set ∧ (source.Unnamed → Holds bytes method.texts) := by
  refine (yields_heapString _).bind ?_
  rintro name _ ⟨hlength, hmem⟩
  have hname := Holds.one (Nat.le_of_eq hlength.symm) (hheap name hmem)
  refine yields_word16.bind fun _ attrBytes _ => ?_
  refine (TypeSpec.yields_decode hheap).bind ?_
  rintro _ _ ⟨-, hresult, hresultTexts⟩
  refine yields_word16.bind fun paramCount paramCountBytes _ => ?_
  refine yields_word16.bind fun localCount localCountBytes _ => ?_
  refine (yields_times (fun _ => yields_readParam hheap _) _).bind ?_
  rintro _ _ ⟨hparams, hparamCount⟩
  refine (yields_times (fun _ => yields_readLocal hheap _ _) _).bind ?_
  rintro locals _ ⟨hlocals, hlocalCount⟩
  refine (source.yields_readCode hheap _).bind ?_
  rintro ⟨instructions, offsets⟩ codeBytes (hcode : StoredCode _ _ instructions offsets)
  refine (yields_count16 _ _).bind ?_
  rintro _ labelCountBytes ⟨-, hlabelCount⟩
  have hoffsets : offsets.length ≤ UInt32.size := by
    have hlt := hcode.instructions_lt
    have heq := hcode.offsets_eq
    omega
  refine (yields_times (fun _ => yields_readLabel hheap _ _ hoffsets) _).bind ?_
  rintro _ _ ⟨hlabels, rfl⟩
  split
  · exact yields_invalid _
  rename_i body haim
  refine yields_pure ⟨?_, fun hunnamed => ?_⟩
  · refine loaded_of_aim hcode hresult ?_ ?_ ?_ hlabelCount ?_ haim
    · rw [List.forall_mem_append]
      exact ⟨hparams.forall_mem fun _ _ h => h.2.1, hlocals.forall_mem fun _ _ h => h.2.1⟩
    · rw [hparamCount]
      exact paramCount.toNat_lt
    · show locals.length < UInt16.size
      rw [hlocalCount]
      exact localCount.toNat_lt
    · exact hlabels.forall_mem fun _ _ h => h.2.1
  · have htexts := texts_of_aim haim
    obtain ⟨_, -, rfl⟩ := aim_ok haim
    unfold Method.texts Method.textsWith
    rw [htexts]
    have hnames := hunnamed (Text.join owner name)
    -- each part holds its own texts; the counts and attributes between hold none
    have hall := (hname.append ((hresultTexts.append
      ((((Holds.of_inParts (fun _ _ h => h.2.2) hparams).append
        ((Holds.of_inParts (fun _ _ h => h.2.2 hnames) hlocals).append
          (hcode.holds.append ((Holds.of_inParts (fun _ _ h => h.2.2 hnames) hlabels).right
              labelCountBytes)))).right localCountBytes).right paramCountBytes)).right attrBytes))
    simp only [List.cons_append, List.append_assoc, List.nil_append, List.append_nil] at hall ⊢
    exact hall

end Source

end Container

-- ==== types

/-- What reading makes sure of for every type, types nested in it left
out. -/
structure TypeDecl.Loaded (set : InstructionSet) (type : TypeDecl) : Prop where
  line : type.line = 0
  fields : ∀ field ∈ type.fields, field.line = 0 ∧ field.type.reference.isPending = false
  methods : ∀ method ∈ type.methods, method.Loaded set

/-- What reading makes sure of for a type where `depth` more levels may
nest, and for the types in it. -/
structure TypeDecl.LoadedAt (set : InstructionSet) (outer : String)
    (depth : Nat) (type : TypeDecl) : Prop where
  fits : type.Fits depth
  walked : ∀ entry ∈ type.walk outer, entry.2.Loaded set

namespace Container.Source

namespace Member

def Loaded (set : InstructionSet) (full : String) (depth : Nat) : Member → Prop
  | .field item => item.line = 0 ∧ item.type.reference.isPending = false
  | .method item => item.Loaded set
  | .nested item => item.LoadedAt set full depth

def texts (full : String) : Member → List String
  | .field item => item.texts
  | .method item => item.texts
  | .nested item => item.texts full

end Member

section Gather

variable {name : String} {attrs : UInt16} {members : List Member}

theorem gather_field (item : Field) :
    gather name attrs (.field item :: members) = { gather name attrs members with
        fields := item :: (gather name attrs members).fields } := rfl

theorem gather_method (item : Method) :
    gather name attrs (.method item :: members) = { gather name attrs members with
        methods := item :: (gather name attrs members).methods } := rfl

theorem gather_nested (item : TypeDecl) :
    gather name attrs (.nested item :: members) = { gather name attrs members with
        nested := item :: (gather name attrs members).nested } := rfl

/-- What holds of every member holds of the fields, the methods and the
nested types. -/
theorem forall_gather {P : Member → Prop} (h : ∀ member ∈ members, P member) :
    (∀ field ∈ (gather name attrs members).fields, P (.field field))
      ∧ (∀ method ∈ (gather name attrs members).methods, P (.method method))
      ∧ ∀ type ∈ (gather name attrs members).nested, P (.nested type) := by
  induction members with
  | nil => exact ⟨List.forall_mem_nil _, List.forall_mem_nil _, List.forall_mem_nil _⟩
  | cons member rest ih =>
    rw [List.forall_mem_cons] at h
    obtain ⟨hfields, hmethods, hnested⟩ := ih h.2
    cases member with
    | field =>
      exact ⟨List.forall_mem_cons.2 ⟨h.1, hfields⟩, hmethods, hnested⟩
    | method =>
      exact ⟨hfields, List.forall_mem_cons.2 ⟨h.1, hmethods⟩, hnested⟩
    | nested =>
      exact ⟨hfields, hmethods, List.forall_mem_cons.2 ⟨h.1, hnested⟩⟩

/-- Every member is a field, a method or a type. -/
theorem memberCount_gather (name : String) (attrs : UInt16) (members : List Member) :
    (gather name attrs members).memberCount = members.length := by
  induction members with
  | nil => rfl
  | cons member rest ih =>
    unfold TypeDecl.memberCount at ih ⊢
    cases member with
    | field =>
      simp only [gather_field, List.length_cons]
      omega
    | method =>
      simp only [gather_method, List.length_cons]
      omega
    | nested =>
      simp only [gather_nested, List.length_cons]
      omega

/-- The texts of members are those of the fields, the methods and the
nested types. -/
theorem perm_texts_gather (name : String) (attrs : UInt16) (full : String) (members : List Member) :
    (members.flatMap (Member.texts full)).Perm
      ((gather name attrs members).fields.flatMap Field.texts
        ++ ((gather name attrs members).methods.flatMap Method.texts
          ++ (gather name attrs members).nested.flatMap
            (TypeDecl.texts full))) := by
  induction members with
  | nil => exact .nil
  | cons member rest ih =>
    refine (ih.append_left _).trans ?_
    cases member with
    | field =>
      rw [gather_field, List.flatMap_cons, List.append_assoc]
      exact .refl _
    | method =>
      rw [gather_method, List.flatMap_cons, List.append_assoc]
      exact List.perm_append_comm_assoc ..
    | nested =>
      refine (List.perm_append_comm_assoc ..).trans ?_
      exact (List.perm_append_comm_assoc ..).append_left _

end Gather

variable (source : Source) (hheap : source.heap.Storable)

include hheap

theorem yields_readField : source.readField.Yields fun bytes field =>
      (field.line = 0 ∧ field.type.reference.isPending = false) ∧ Holds bytes field.texts := by
  refine (yields_heapString _).bind ?_
  rintro name _ ⟨hlength, hname⟩
  refine yields_word16.bind fun _ attrBytes _ => ?_
  refine (TypeSpec.yields_decode hheap).map ?_
  rintro _ _ ⟨-, hresolved, hholds⟩
  refine ⟨⟨rfl, hresolved⟩, ?_⟩
  exact (Holds.one (Nat.le_of_eq hlength.symm) (hheap name hname)).append (hholds.right attrBytes)

theorem yields_readMember {full : String} {depth : Nat} {readNested : Decode TypeDecl}
    (hnested : readNested.Yields fun bytes type =>
      type.LoadedAt source.set full depth ∧ (source.Unnamed → Holds bytes (type.texts full))) :
    (source.readMember full readNested).Yields fun bytes member =>
      member.Loaded source.set full depth ∧ (source.Unnamed → Holds bytes (member.texts full)) := by
  refine (Segment.yields_decode _ _).bind fun _ front _ => ?_
  split
  · refine (source.yields_readField hheap).map ?_
    rintro back _ ⟨hfield, hholds⟩
    exact ⟨hfield, fun _ => hholds.right front⟩
  · refine (source.yields_readMethod hheap full).map ?_
    rintro back _ ⟨hmethod, hholds⟩
    exact ⟨hmethod, fun hunnamed => (hholds hunnamed).right front⟩
  · refine hnested.map ?_
    rintro back _ ⟨htype, hholds⟩
    exact ⟨htype, fun hunnamed => (hholds hunnamed).right front⟩

/-- A type that was read keeps to the limits, and all its members are as
reading makes sure of. -/
theorem yields_readType (outer : String) (depth : Nat) :
    (source.readType outer depth).Yields fun bytes type =>
      type.LoadedAt source.set outer depth ∧ (source.Unnamed → Holds bytes (type.texts outer)) := by
  induction depth generalizing outer with
  | zero => exact yields_invalid _
  | succ depth ih =>
    refine (yields_heapString _).bind ?_
    rintro name _ ⟨hlength, hname⟩
    refine yields_word16.bind fun attrs attrBytes _ => ?_
    refine (yields_count32 _ _).bind ?_
    rintro count countBytes ⟨-, hcount⟩
    refine (yields_times (fun _ => source.yields_readMember hheap (ih _)) count).map ?_
    rintro _ members ⟨hparts, rfl⟩
    obtain ⟨hfields, hmethods, hnested⟩ := forall_gather (hparts.forall_mem fun _ _ h => h.1)
    refine ⟨⟨⟨?_, fun inner h => (hnested inner h).fits⟩, ?_⟩, fun hunnamed => ?_⟩
    · rw [memberCount_gather]
      exact hcount
    · rw [TypeDecl.walk_eq, List.forall_mem_cons]
      refine ⟨⟨rfl, hfields, hmethods⟩, fun entry hentry => ?_⟩
      obtain ⟨inner, hinner, hentry⟩ := List.mem_flatMap.1 hentry
      exact (hnested inner hinner).walked entry hentry
    · have hholds := (Holds.of_inParts (fun _ _ h => h.2 hunnamed) hparts).perm
          (perm_texts_gather name attrs (Text.join outer name) members)
      have hall := (Holds.one (Nat.le_of_eq hlength.symm) (hheap name hname)).append
          ((hholds.right countBytes).right attrBytes)
      rw [TypeDecl.texts, TypeDecl.textsWith_eq]
      unfold TypeDecl.ownTextsWith
      simp only [List.cons_append, List.append_assoc, List.nil_append] at hall ⊢
      exact hall

-- ==== programs

namespace Declaration

/-- What reading makes sure of for every declaration. -/
def Loaded (set : InstructionSet) : Declaration → Prop
  | .external path => Text.Storable path
  | .typeAlias entry => Text.Storable entry.name ∧ entry.target.reference.isPending = false
    ∧ ∀ text ∈ entry.target.reference.texts, Text.Storable text
  | .space name types => Text.Storable name ∧ ∀ type ∈ types, type.LoadedAt set name depthLimit

def texts : Declaration → List String
  | .space name types => types.flatMap (TypeDecl.texts name)
  | _ => []

end Declaration

theorem yields_readDeclaration : source.readDeclaration.Yields fun bytes declaration =>
      declaration.Loaded source.set ∧ (source.Unnamed → Holds bytes declaration.texts) := by
  refine (Segment.yields_decode _ _).bind fun _ front _ => ?_
  split
  · refine Yields.map (G := fun _ path => Text.Storable path) ?_
      fun bytes path hpath => ⟨hpath, fun _ => .nil _⟩
    refine yields_string.bind fun path bytes hpath => ?_
    exact (yields_expectNoChildren _).map fun _ _ _ => hpath.2
  · refine Yields.map (G := fun _ entry =>
      Declaration.Loaded source.set (.typeAlias entry)) ?_
        fun bytes entry hentry => ⟨hentry, fun _ => .nil _⟩
    refine yields_string.bind fun name _ hname => ?_
    refine SymbolKind.yields_decode.bind fun _ _ _ => ?_
    refine yields_string.bind fun _ _ htarget => ?_
    refine yields_byte.bind fun _ _ _ => ?_
    refine (yields_expectNoChildren _).map fun _ _ _ => ⟨hname.2, rfl, ?_⟩
    intro text htext
    rw [List.mem_singleton.1 htext]
    exact htarget.2
  · refine yields_string.bind fun name nameBytes hname => ?_
    refine (yields_count32 _ _).bind fun count countBytes _ => ?_
    have heach : Yields (do
          Segment.expect "a namespace" .type
          source.readType name depthLimit) fun bytes type =>
        type.LoadedAt source.set name depthLimit
          ∧ (source.Unnamed → Holds bytes (type.texts name)) := by
      refine (Segment.yields_expect _ _).bind fun _ part _ => ?_
      refine (source.yields_readType hheap name depthLimit).imp ?_
      rintro bytes type ⟨htype, hholds⟩
      exact ⟨htype, fun hunnamed => (hholds hunnamed).right part⟩
    refine (yields_times (fun _ => heach) count).map ?_
    rintro _ _ ⟨hparts, -⟩
    refine ⟨⟨hname.2, hparts.forall_mem fun _ _ h => h.1⟩, fun hunnamed => ?_⟩
    exact (((Holds.of_inParts (fun _ _ h => h.2 hunnamed) hparts).right
      countBytes).right nameBytes).right front

end Container.Source

namespace Container

theorem yields_readHeader : readHeader.Yields fun _ header => header.heap.Storable := by
  refine yields_word16.bind fun _ _ _ => ?_
  split
  · exact yields_of_fails fun _ _ _ h => nomatch h
  refine yields_byte.bind fun _ _ _ => ?_
  split
  · exact yields_of_fails fun _ _ _ h => nomatch h
  exact yields_heap.map fun _ _ h => h

theorem yields_readDeclarations (set : InstructionSet) (names : Option DebugNames) :
    (readDeclarations set names).Yields fun bytes declarations =>
      declarations.length ≤ countLimit ∧ (∀ declaration ∈ declarations, declaration.Loaded set)
        ∧ (names = none →
          Holds bytes (declarations.flatMap Source.Declaration.texts)) := by
  refine yields_readHeader.bind fun _ front hheap => ?_
  refine (yields_count32 _ _).bind ?_
  rintro count countBytes ⟨-, hcount⟩
  refine (yields_times (fun _ => Source.yields_readDeclaration _ hheap) count).imp ?_
  rintro _ _ ⟨hparts, rfl⟩
  refine ⟨hcount, hparts.forall_mem fun _ _ h => h.1, ?_⟩
  rintro rfl
  have hunnamed : ∀ full, ((Option.getD none {} : DebugNames).methodTable
      MethodNames.tables).get? full = none := by
    intro full
    rw [DebugNames.get?_methodTable]
    rfl
  exact ((Holds.of_inParts (fun _ _ h => h.2 hunnamed) hparts).right countBytes).right front

end Container

open Container

/-- What reading makes sure of for a program. -/
structure Program.Loaded (set : InstructionSet) (program : Program) : Prop where
  regular : program.Regular
  segments_le : program.segmentCount ≤ countLimit
  externals : ∀ path ∈ program.externals, Text.Storable path
  aliases : ∀ entry ∈ program.aliases, Source.Declaration.Loaded set (.typeAlias entry)
  names : ∀ space ∈ program.namespaces, Text.Storable space.name
  fits : ∀ space ∈ program.namespaces, ∀ type ∈ space.types, type.Fits depthLimit
  types : ∀ entry ∈ program.types, entry.2.Loaded set

namespace Program

variable {set : InstructionSet}

theorem loaded_assemble {declarations : List Source.Declaration}
    (hcount : declarations.length ≤ countLimit)
    (h : ∀ declaration ∈ declarations, declaration.Loaded set) :
    (Source.assemble declarations).Loaded set := by
  have hexternals : ∀ path ∈ declarations.filterMap Source.Declaration.external?,
        Text.Storable path := by
    intro path hpath
    obtain ⟨declaration, hmem, heq⟩ := List.mem_filterMap.1 hpath
    cases declaration with
    | external =>
      cases heq
      exact h _ hmem
    | _ => cases heq
  have haliases : ∀ entry ∈ declarations.filterMap Source.Declaration.typeAlias?,
        Source.Declaration.Loaded set (.typeAlias entry) := by
    intro entry hentry
    obtain ⟨declaration, hmem, heq⟩ := List.mem_filterMap.1 hentry
    cases declaration with
    | typeAlias =>
      cases heq
      exact h _ hmem
    | _ => cases heq
  have hspaces : ∀ space ∈ declarations.filterMap Source.Declaration.space?,
        Source.Declaration.Loaded set (.space space.name space.types) :=
    fun space hspace =>
      h _ (Source.of_mem_filterMap_space? declarations hspace).1
  -- The types of the program are those that were declared.
  have hloaded : ∀ space ∈ (Source.assemble declarations).namespaces,
      ∀ type ∈ space.types, type.LoadedAt set space.name depthLimit := Source.forall_mergeNamespaces
      (P := fun name type => type.LoadedAt set name depthLimit)
      fun space hspace => (hspaces space hspace).2
  have htypes : ∀ entry ∈ (Source.assemble declarations).types, entry.2.Loaded set := by
    intro entry hentry
    obtain ⟨space, hspace, hentry⟩ := List.mem_flatMap.1 hentry
    obtain ⟨type, htype, hentry⟩ := TypeDecl.mem_walkAll.1 hentry
    exact (hloaded space hspace type htype).walked entry hentry
  have hnames := Source.names_mergeNamespaces (declarations.filterMap Source.Declaration.space?)
  constructor
  · refine ⟨Source.nodup_eraseDups _, ?_, Source.types_ne_nil_mergeNamespaces fun space hspace =>
        (Source.of_mem_filterMap_space? declarations hspace).2, ?_⟩
    · show ((Source.mergeNamespaces _).map (·.name)).Nodup
      rw [hnames]
      exact Source.nodup_eraseDups _
    · intro entry hentry
      obtain ⟨owner, howner, hentry⟩ := List.mem_flatMap.1 hentry
      obtain ⟨method, hmethod, rfl⟩ := List.mem_map.1 hentry
      exact ((htypes owner howner).methods method hmethod).aimed
  · exact Nat.le_trans (Source.segmentCount_assemble_le declarations) hcount
  · intro path hpath
    exact hexternals path (List.mem_eraseDups.1 hpath)
  · exact haliases
  · intro space hspace
    have hname : space.name ∈ ((declarations.filterMap
        Source.Declaration.space?).map (·.name)).eraseDups := by
      rw [← hnames]
      exact List.mem_map.2 ⟨space, hspace, rfl⟩
    rw [List.mem_eraseDups, List.mem_map] at hname
    obtain ⟨part, hpart, heq⟩ := hname
    rw [← heq]
    exact (hspaces part hpart).1
  · exact fun space hspace type htype =>
      (hloaded space hspace type htype).fits
  · exact htypes

/-- A namespace without types has no texts. -/
theorem texts_filterMap_space? (declarations : List Source.Declaration) :
    ((declarations.filterMap Source.Declaration.space?).flatMap fun space =>
        space.types.flatMap (TypeDecl.texts space.name))
      = declarations.flatMap Source.Declaration.texts := by
  induction declarations with
  | nil => rfl
  | cons declaration rest ih =>
    rw [List.flatMap_cons, ← ih]
    cases declaration with
    | external => rfl
    | typeAlias => rfl
    | space name types =>
      cases types with
      | nil => rfl
      | cons => rfl

/-- Reading makes sure of all that, whatever the bytes. -/
theorem loaded_of_ofContainer {names : Option DebugNames} {bytes : List UInt8} {program : Program}
    (h : ofContainer set names bytes = .ok program) :
    program.Loaded set := by
  obtain ⟨⟨_, hrun, -⟩, rfl⟩ := declared_of_ofContainer h
  obtain ⟨_, -, hcount, hloaded, -⟩ := (yields_readDeclarations set names).took hrun
  exact loaded_assemble hcount hloaded

/-- A container without debug names has room for the texts of its
program. -/
theorem holds_of_ofContainer {bytes : List UInt8} {program : Program}
    (h : ofContainer set none bytes = .ok program) :
    Holds bytes program.texts := by
  obtain ⟨⟨_, hrun, hrest⟩, rfl⟩ := declared_of_ofContainer h
  obtain ⟨taken, htaken, -, -, hholds⟩ := (yields_readDeclarations set none).took hrun
  have hbytes : bytes = taken := by
    rw [hrest, List.append_nil] at htaken
    exact htaken
  rw [hbytes, texts, textsWith_eq]
  refine (hholds rfl).perm (List.Perm.symm ?_)
  rw [← texts_filterMap_space?, ← hbytes]
  exact Source.perm_mergeNamespaces TypeDecl.texts _

end Program

end StackAsm
