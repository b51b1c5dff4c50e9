/-
Where types come from. While a file is read, the types it mentions are in
the targets of its aliases, in the program and in the open blocks. A
statement adds those that it was just read with, each with the snapshot
that is kept then, and no others (`Effect.shows`). So a type that is there
after a round and was not before has been written in it.
-/
import StackAsm.Proofs.Parse.Recovery

namespace StackAsm

variable {Q R : TypeSpec → Prop} {m : OpenMethod} {t : OpenType}

-- ==== operands

/-- A type among the operands is built in or is to be looked up in the
context's scope. -/
structure ArgumentContext.Refers (ctx : ArgumentContext) (spec : TypeSpec) : Prop where
  builtIn : ∀ symbol, spec.reference = .resolved symbol →
    isPrimitiveName symbol.name = true ∧ symbol = .primitive symbol.name
  pending : ∀ reference, spec.reference = .pending reference →
    reference.kind = .type ∧ isPrimitiveName reference.name = false ∧ reference.scope = ctx.scope

theorem ArgumentContext.refers_typeReference (ctx : ArgumentContext)
    (name : String) (column : Nat) (dims : UInt8) :
    ctx.Refers ⟨ctx.typeReference name column, dims⟩ := by
  constructor
  · intro symbol hsymbol
    unfold typeReference at hsymbol
    split at hsymbol
    · rename_i hbuiltIn
      cases hsymbol
      exact ⟨hbuiltIn, rfl⟩
    · cases hsymbol
  · intro reference href
    unfold typeReference at href
    split at href
    · cases href
    · rename_i hplain
      cases href
      exact ⟨rfl, Bool.eq_false_iff.2 hplain, rfl⟩

theorem ArgumentContext.refers_of_read {ctx : ArgumentContext}
    {kind : ArgumentKind} {arg : Argument} {spec : TypeSpec} {implicit implicit' : List String}
    (h : (ctx.read kind arg).run implicit = .ok (.type spec) implicit') :
    ctx.Refers spec := by
  have haccepts := (gives_of_read h).accepts
  have htype : (ctx.readType kind arg).run implicit = .ok (.type spec) implicit' := by
    cases kind <;> first | exact h | cases haccepts
  unfold readType at htype
  split at htype
  · split at htype <;> cases htype
  · cases htype
  · split at htype
    · cases htype
    · split at htype
      · cases htype
      · cases htype
        exact ctx.refers_typeReference ..

namespace Form

variable {ctx : ArgumentContext} {operands : List Operand} {implicit implicit' : List String}

/-- The types among the operands of an instruction that was read. -/
theorem Reads.refers {kinds : List ArgumentKind} {args : List Argument}
    (h : Reads ctx kinds args implicit operands implicit')
    {spec : TypeSpec} (hspec : .type spec ∈ operands) :
    ctx.Refers spec := by
  induction h with
  | nil => cases hspec
  | cons hfirst _ ih =>
    rcases List.mem_cons.1 hspec with rfl | hspec
    · exact ArgumentContext.refers_of_read hfirst
    · exact ih hspec

end Form

-- ==== methods

/-- Whether a property holds of every type that members mention. -/
def EveryMember (Q : TypeSpec → Prop) (fields : List Field) (methods : List Method) : Prop :=
  ∀ spec ∈ memberSpecs fields methods, Q spec

theorem everyMember_iff {fields : List Field} {methods : List Method} :
    EveryMember Q fields methods ↔ (∀ field ∈ fields, Q field.type)
      ∧ ∀ method ∈ methods, ∀ spec ∈ method.specs, Q spec := by
  unfold EveryMember memberSpecs
  simp only [List.forall_mem_append, List.forall_mem_map, List.forall_mem_flatMap]

/-- Whether a property holds of every type that an open method
mentions. -/
structure OpenMethod.Every (Q : TypeSpec → Prop) (m : OpenMethod) : Prop where
  signature : ∀ spec ∈ m.method.signature, Q spec
  locals : ∀ var ∈ m.locals, Q var.type
  code : ∀ instruction ∈ m.instructions, ∀ spec ∈ instruction.specs, Q spec

theorem OpenMethod.every_iff : m.Every Q ↔ ∀ spec ∈ m.finish.specs, Q spec := by
  unfold Method.specs
  simp only [List.forall_mem_append, List.forall_mem_map, List.forall_mem_flatMap]
  constructor
  · intro h
    exact ⟨⟨h.signature, h.locals⟩, fun instruction hmem =>
      h.code instruction (List.mem_reverse.1 hmem)⟩
  · intro h
    exact ⟨h.1.1, h.1.2, fun instruction hmem =>
      h.2 instruction (List.mem_reverse.2 hmem)⟩

theorem OpenMethod.Every.placeLabel {placed : OpenMethod} {name : String}
    {line : Nat} (h : m.Every Q)
    (hplaced : m.placeLabel name line = .ok placed) : placed.Every Q := by
  rcases placeLabel_cases hplaced with ⟨_, _, -, -, -, rfl⟩ | ⟨-, -, rfl⟩ <;>
    exact ⟨h.signature, h.locals, h.code⟩

theorem OpenMethod.Every.addInstruction (h : m.Every Q)
    {instruction : Instruction} (hcode : ∀ spec ∈ instruction.specs, Q spec)
    (hobject : Q .object) (implicit : List String) :
    (m.addInstruction instruction implicit).Every Q := by
  refine ⟨h.signature, ?_, ?_⟩
  · show ∀ var ∈ m.locals ++ implicit.map _, Q var.type
    rw [List.forall_mem_append, List.forall_mem_map]
    exact ⟨h.locals, fun _ _ => hobject⟩
  · show ∀ other ∈ instruction :: m.instructions, _
    rw [List.forall_mem_cons]
    exact ⟨hcode, h.code⟩

-- ==== types

/-- Whether a property holds of every type that an open type mentions. -/
structure OpenType.Every (Q : TypeSpec → Prop) (t : OpenType) : Prop where
  decl : t.decl.All (EveryMember Q)
  method : ∀ m, t.method = some m → m.Every Q

/-- Every type that an open type mentions. -/
def OpenType.specs (t : OpenType) : List TypeSpec :=
  (TypeDecl.walk t.space t.decl).flatMap (fun entry =>
      memberSpecs entry.2.fields entry.2.methods)
    ++ t.method.toList.flatMap (·.finish.specs)

def Block.specs : Block → List TypeSpec
  | .type t => t.specs
  | _ => []

theorem OpenType.every_iff : t.Every Q ↔ ∀ spec ∈ t.specs, Q spec := by
  unfold specs
  simp only [List.forall_mem_append, List.forall_mem_flatMap, Option.mem_toList]
  constructor
  · intro h
    exact ⟨fun _ hentry => h.decl.of_walk hentry,
      fun m hm => OpenMethod.every_iff.1 (h.method m hm)⟩
  · intro h
    exact ⟨.of_forall_walk t.space h.1, fun m hm => OpenMethod.every_iff.2 (h.2 m hm)⟩

theorem EveryMember.addMethod {fields : List Field} {methods : List Method}
    {method : Method} (h : EveryMember Q fields methods) (hmethod : ∀ spec ∈ method.specs, Q spec) :
    EveryMember Q fields (methods ++ [method]) := by
  obtain ⟨hfields, hmethods⟩ := everyMember_iff.1 h
  refine everyMember_iff.2 ⟨hfields, ?_⟩
  rw [List.forall_mem_append, List.forall_mem_singleton]
  exact ⟨hmethods, hmethod⟩

-- ==== states

namespace ParseState

variable {set : InstructionSet} {state next : ParseState} {t : OpenType} {outer : List Block}

/-- Whether a property holds of every type that was read so far. -/
structure Every (Q : TypeSpec → Prop) (state : ParseState) : Prop where
  aliases : ∀ entry ∈ state.aliases, Q entry.target
  program : state.program.All (EveryMember Q)
  opened : ∀ t, .type t ∈ state.blocks → t.Every Q

theorem every_iff_keeps : state.Every Q
    ↔ (∀ entry ∈ state.aliases, Q entry.target)
      ∧ state.Keeps (EveryMember Q) (OpenMethod.Every Q) :=
  ⟨fun h => ⟨h.aliases, h.program, fun t ht =>
      ⟨(h.opened t ht).1, (h.opened t ht).2⟩⟩,
    fun h => ⟨h.1, h.2.program, fun t ht =>
      ⟨(h.2.opened t ht).1, (h.2.opened t ht).2⟩⟩⟩

/-- A statement adds the types that it was read with. -/
theorem Effect.every {text : List Char} {braces : List Brace}
    (heffect : Effect set text state braces next) (h : state.Every Q)
    (hnew : ∀ typePath spec, state.scope.Shows typePath spec → Q spec) :
    next.Every Q := by
  rw [every_iff_keeps] at h ⊢
  obtain ⟨haliases, h⟩ := h
  cases heffect with
  | close =>
    refine ⟨?_, h.closeBlock (fun m hm => ⟨hm.signature, hm.locals, hm.code⟩)
      fun _ _ m hown hm => hown.addMethod (OpenMethod.every_iff.1 hm)⟩
    rw [closeBlock_eq]
    exact haliases
  | noteAlias name target hspace hname hshows =>
    refine ⟨?_, h.program, h.opened⟩
    rw [List.forall_mem_cons]
    exact ⟨hnew _ _ hshows, haliases⟩
  | noteExternal path =>
    exact ⟨haliases, h.program.addExternal path, h.opened⟩
  | openSpace =>
    exact ⟨haliases, .push h.program h.opened rfl fun _ => nofun⟩
  | openType =>
    refine ⟨haliases, .push h.program h.opened rfl ?_⟩
    rintro _ ⟨⟩
    exact ⟨.node (List.forall_mem_nil _) (List.forall_mem_nil _), fun _ => nofun⟩
  | addField field htype hfresh hshows =>
    obtain ⟨hdecl, hmethod⟩ := h.innermost htype.blocks
    obtain ⟨hfields, hmethods⟩ := everyMember_iff.1 hdecl.own
    refine ⟨haliases, h.putType htype.blocks rfl rfl ⟨.node
      (everyMember_iff.2 ⟨?_, hmethods⟩) hdecl.nested, hmethod⟩⟩
    rw [List.forall_mem_append, List.forall_mem_singleton]
    exact ⟨hfields, hnew _ _ hshows⟩
  | addMethod method htype hhead hbodiless hfresh hshows =>
    have hspecs : ∀ spec ∈ method.specs, Q spec := by
      intro spec hspec
      unfold Method.specs at hspec
      rw [hhead.body] at hspec
      simp only [List.map_nil, List.flatMap_nil, List.append_nil] at hspec
      exact hnew _ _ (hshows spec hspec)
    exact ⟨haliases, h.addMethod htype.blocks rfl
      (by rw [← htype.method]; rfl) fun hown => hown.addMethod hspecs⟩
  | @openMethod t outer method htype hhead hfresh hbrace hshows =>
    refine ⟨haliases, h.putMethod htype.blocks rfl rfl
      ⟨fun spec hspec => hnew _ _ (hshows spec hspec), ?_, List.forall_mem_nil _⟩⟩
    show ∀ var ∈ method.body.locals, Q var.type
    rw [hhead.body]
    exact List.forall_mem_nil _
  | openLocals line hmethod =>
    exact ⟨haliases, h.changeMethod hmethod.blocks rfl hmethod.method rfl fun hm =>
      ⟨hm.signature, hm.locals, hm.code⟩⟩
  | @addLocal t outer m var hlocals hfresh hroom hstep hshows =>
    refine ⟨haliases, h.changeMethod hlocals.blocks rfl hlocals.method rfl fun hm =>
      ⟨hm.signature, ?_, hm.code⟩⟩
    show ∀ other ∈ m.locals ++ [var], Q other.type
    rw [List.forall_mem_append, List.forall_mem_singleton]
    exact ⟨hm.locals, hnew _ _ hshows⟩
  | placeLabel name line hmethod hplaced =>
    exact ⟨haliases, h.changeMethod hmethod.blocks rfl hmethod.method rfl (·.placeLabel hplaced)⟩
  | @addInstruction t outer m form operands implicit log scope args line
      hmethod hform hread hlog hsilent hpath hkept =>
      have hobject : Q .object := hnew none _ (ScopeStack.shows_of_primitive rfl (by decide))
      have hcode : ∀ spec ∈ Instruction.specs ⟨form.opcode, operands, line⟩, Q spec := by
        intro spec hspec
        obtain ⟨operand, hop, hsome⟩ := List.mem_filterMap.1 hspec
        have htype : operand = .type spec := by
          cases operand <;> cases hsome
          rfl
        rw [htype] at hop
        have hrefers := (Form.reads_of_read hread).refers hop
        refine hnew (some t.full) spec ⟨hrefers.builtIn, fun reference href => ?_⟩
        obtain ⟨hkind, hplain, hscope⟩ := hrefers.pending _ href
        change reference.scope = scope at hscope
        rw [← hscope] at hpath hkept
        exact ⟨hkind, hplain, hpath, hkept⟩
      exact ⟨haliases, h.changeMethod hmethod.blocks rfl hmethod.method rfl
        (·.addInstruction hcode hobject implicit)⟩
  -- no type is written in what is left
  | _ => exact ⟨haliases, h.program, h.opened⟩

-- ==== mentions

/-- Every type that was read so far. -/
def specs (state : ParseState) : List TypeSpec :=
  state.aliases.map (·.target) ++ state.program.memberSpecs
    ++ state.blocks.flatMap Block.specs

theorem every_iff : state.Every Q ↔ ∀ spec ∈ state.specs, Q spec := by
  unfold specs Program.memberSpecs
  simp only [List.forall_mem_append, List.forall_mem_map, List.forall_mem_flatMap]
  constructor
  · intro h
    refine ⟨⟨h.aliases, fun _ hentry => h.program.of_types hentry⟩, ?_⟩
    intro block hblock
    cases block with
    | type t => exact OpenType.every_iff.1 (h.opened t hblock)
    | space | skipped => exact List.forall_mem_nil _
  · intro h
    exact ⟨h.1.1, .of_forall_types h.1.2, fun t ht =>
      OpenType.every_iff.2 (h.2 _ ht)⟩

/-- A type that a statement brings has the snapshot that is kept. -/
theorem Effect.shows {text : List Char} {braces : List Brace}
    (heffect : Effect set text state braces next) {spec : TypeSpec} (h : spec ∈ next.specs) :
    spec ∈ state.specs ∨ ∃ typePath, state.scope.Shows typePath spec := by
  have hold : state.Every fun spec =>
      spec ∈ state.specs ∨ ∃ typePath, state.scope.Shows typePath spec :=
    every_iff.2 fun _ hspec => .inl hspec
  exact every_iff.1 (heffect.every hold fun typePath _ hshows =>
    .inr ⟨typePath, hshows⟩) spec h

end ParseState

end StackAsm
