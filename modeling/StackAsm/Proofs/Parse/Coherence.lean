/-
Coherent parses. While a file is read, its types are in three places: in
the program, in the open types, and nested in those. All of them together
stay in order with the branch fixes handed over so far
(`ParseState.Coherent`): a full name is never repeated, since a type is
opened only under a name that is neither declared in this file nor found
in the program, and a method goes to its type together with the fixes of
its branches. Every statement keeps that order (`Effect.coherent`).
-/
import StackAsm.Proofs.Name.Scopes
import StackAsm.Proofs.Parse.Nesting

namespace StackAsm

-- ==== names

/-- A word can be one part of a dotted name. -/
theorem Text.IsWord.isPart {name : String} (h : Text.IsWord name) : Text.IsPart name := by
  obtain ⟨hne, hchars⟩ := h
  refine ⟨?_, ?_⟩
  · rintro rfl
    exact hne rfl
  · intro hdot
    exact absurd (hchars '.' hdot) (by decide)

/-- Reading keeps a scope sound. -/
theorem ScopeStack.Sound.mayKeep {stack : ScopeStack} (h : stack.Sound)
    {kept : Option Scope} (hkept : stack.MayKeep kept) :
    Sound { stack with kept } := by
  refine ⟨h.segments, fun scope hscope => ?_⟩
  rcases hkept with rfl | ⟨_, rfl⟩
  · exact h.fresh scope hscope
  · cases hscope
    rfl

-- ==== blocks

namespace OpenType

/-- The entries of an open type and of the types nested in it. -/
def entries (t : OpenType) : List TypeEntry :=
  ⟨t.full, t.decl.name, t.decl.methods⟩
    :: t.decl.nested.flatMap (TypeDecl.entries t.full)

/-- The full name of what a type stands in. -/
def around (t : OpenType) : List Block → String
  | .type parent :: _ => parent.full
  | _ => t.space

theorem entries_decl {t : OpenType} {outer : String} (h : t.full = Text.join outer t.decl.name) :
    t.decl.entries outer = t.entries := by
  rw [TypeDecl.entries_eq, ← h]
  rfl

/-- A type that is nested in an open one brings its entries. -/
theorem entries_nest {t parent : OpenType} (h : t.full = Text.join parent.full t.decl.name) :
    entries { parent with decl := { parent.decl with
        nested := parent.decl.nested ++ [t.decl] } }
      = parent.entries ++ t.entries := by
  rw [← entries_decl h, entries, entries]
  simp only [List.flatMap_append, List.flatMap_singleton, List.cons_append]

/-- What holds of an open type inside those blocks. -/
structure Sound (t : OpenType) (outer : List Block) : Prop where
  full : t.full = Text.join (t.around outer) t.decl.name
  method : ∀ m, t.method = some m → m.Sound
  fresh : ∀ m, t.method = some m → t.decl.method? m.method.name = none

end OpenType

namespace Block

def entries : Block → List TypeEntry
  | .type t => t.entries
  | _ => []

/-- Types stand in types, and outside of them there are only
namespaces. -/
inductive Nested : List Block → Prop where
  | spaces {blocks : List Block} (h : ∀ block ∈ blocks, ∃ line, block = .space line) : Nested blocks
  | type {t : OpenType} {outer : List Block} (hsound : t.Sound outer)
      (houter : Nested outer) : Nested (.type t :: outer)

namespace Nested

variable {blocks outer : List Block} {t : OpenType}

theorem sound (h : Nested (.type t :: outer)) : t.Sound outer := by
  cases h with
  | spaces h =>
    obtain ⟨_, hline⟩ := h _ (.head _)
    cases hline
  | type hsound => exact hsound

theorem tail {block : Block} (h : Nested (block :: outer)) : Nested outer := by
  cases h with
  | spaces h => exact .spaces (List.forall_mem_cons.1 h).2
  | type hsound houter => exact houter

/-- Outside every type there are only namespaces. -/
theorem all_spaces (h : Nested blocks)
    (hspace : ∀ block ∈ blocks.head?, ∃ line, block = .space line) :
    ∀ block ∈ blocks, ∃ line, block = .space line := by
  cases h with
  | spaces h => exact h
  | type =>
    obtain ⟨_, hline⟩ := hspace _ rfl
    cases hline

theorem unskipped (h : Nested blocks) : ParseState.Unskipped blocks := by
  induction h with
  | spaces h =>
    intro block hblock
    obtain ⟨_, rfl⟩ := h block hblock
    rfl
  | type hsound houter ih => exact .cons rfl ih

end Nested

end Block

-- ==== states

namespace ParseState

/-- The entries of all types so far, open or not. -/
def entries (state : ParseState) : List TypeEntry :=
  state.program.entries ++ state.blocks.flatMap Block.entries

/-- What holds of a parse between statements; `before` are the fixes of
the files before this one. -/
structure Coherent (before : List BranchFixes) (state : ParseState) : Prop where
  nested : Block.Nested state.blocks
  linkable : Linkable state.entries (state.output.fixes ++ before)
  listed : state.program.Listed
  declared : ∀ full ∈ (state.blocks.flatMap Block.entries).map (·.full), full ∈ state.declared
  scope : state.scope.Sound

variable {set : InstructionSet} {state next : ParseState}
  {before : List BranchFixes} {text : List Char} {braces : List Brace}
  {t : OpenType} {outer : List Block}

theorem entries_of_blocks (hblocks : state.blocks = .type t :: outer) :
    state.entries = state.program.entries
      ++ ⟨t.full, t.decl.name, t.decl.methods⟩
        :: (t.decl.nested.flatMap (TypeDecl.entries t.full)
          ++ outer.flatMap Block.entries) := by
  rw [entries, hblocks, List.flatMap_cons]
  rfl

/-- A type that is handed to its namespace takes its entries there. -/
theorem perm_closeOutermost (hnested : Block.Nested state.blocks)
    (hblocks : state.blocks = .type t :: outer)
    (haround : t.around outer = t.space) (output : ParseOutput) :
    (entries { state with
      blocks := outer
      output
      program := state.program.addType t.space t.decl }).Perm state.entries := by
  rw [hblocks] at hnested
  have hfull := hnested.sound.full
  rw [haround] at hfull
  have hadded := state.program.entries_addType t.space t.decl
  rw [OpenType.entries_decl hfull] at hadded
  unfold entries
  rw [hblocks, List.flatMap_cons]
  refine (hadded.append_right _).trans ?_
  rw [List.append_assoc]
  exact List.perm_append_comm_assoc ..

/-- A type that is handed to the type around it takes its entries there. -/
theorem perm_nest {parent : OpenType} {rest : List Block} (hnested : Block.Nested state.blocks)
    (hblocks : state.blocks = .type t :: .type parent :: rest) :
    ((Block.type { parent with decl := { parent.decl with
        nested := parent.decl.nested ++ [t.decl] } }
      :: rest).flatMap Block.entries).Perm (state.blocks.flatMap Block.entries) := by
  rw [hblocks] at hnested
  rw [hblocks, List.flatMap_cons, List.flatMap_cons, List.flatMap_cons]
  show (OpenType.entries _ ++ _).Perm _
  rw [OpenType.entries_nest hnested.sound.full, List.append_assoc]
  exact List.perm_append_comm_assoc ..

theorem perm_closeType (hnested : Block.Nested state.blocks)
    (hblocks : state.blocks = .type t :: outer) :
    (state.closeType t outer).entries.Perm state.entries := by
  rcases outer with _ | ⟨block, _⟩
  · exact perm_closeOutermost hnested hblocks rfl _
  · cases block with
    | space | skipped => exact perm_closeOutermost hnested hblocks rfl _
    | type => exact (perm_nest hnested hblocks).append_left _

namespace Coherent

theorem moved (h : state.Coherent before) (hmoved : state.Moved next) : next.Coherent before := by
  obtain ⟨_, _, hkept, rfl⟩ := hmoved
  exact ⟨h.nested, h.linkable, h.listed, h.declared, h.scope.mayKeep hkept⟩

/-- A change of the open type that keeps its names, its methods and the
types in it. -/
theorem putType (h : state.Coherent before)
    (hblocks : state.blocks = .type t :: outer) {changed : OpenType}
    (hentries : changed.entries = t.entries) (hsound : changed.Sound outer) :
    (state.putType changed outer).Coherent before := by
  have hflat : (Block.type changed :: outer).flatMap Block.entries
      = state.blocks.flatMap Block.entries := by
    rw [hblocks, List.flatMap_cons, List.flatMap_cons]
    exact congrArg (· ++ _) hentries
  have hnested := h.nested
  rw [hblocks] at hnested
  refine ⟨.type hsound hnested.tail, ?_, h.listed, ?_, h.scope⟩
  · unfold entries
    show Linkable (state.program.entries ++ (Block.type changed :: outer).flatMap Block.entries) _
    rw [hflat]
    exact h.linkable
  · show ∀ full ∈ ((Block.type changed :: outer).flatMap Block.entries).map _, _
    rw [hflat]
    exact h.declared

/-- A change of the open method that keeps its name. -/
theorem putMethod (h : state.Coherent before)
    (hblocks : state.blocks = .type t :: outer) {m changed : OpenMethod} (hm : t.method = some m)
    (hname : changed.method.name = m.method.name) (hchanged : m.Sound → changed.Sound) :
    (state.putType { t with method := some changed } outer).Coherent before := by
  have hnested := h.nested
  rw [hblocks] at hnested
  obtain ⟨hfull, hsound, hfresh⟩ := hnested.sound
  refine h.putType hblocks rfl ⟨hfull, ?_, ?_⟩
  · rintro opened ⟨⟩
    exact hchanged (hsound m hm)
  · rintro opened ⟨⟩
    rw [hname]
    exact hfresh m hm

/-- A method joins the open type, with its fixes unless it is settled. -/
theorem addMethod (h : state.Coherent before)
    (hblocks : state.blocks = .type t :: outer) {method : Method} (hpart : Text.IsPart method.name)
    (hfresh : t.decl.method? method.name = none)
    (hlabels : (method.body.labels.map (·.index)).Nodup)
    {new : List BranchFixes} {output : ParseOutput}
    (houtput : output.fixes = new ++ state.output.fixes)
    (hnew : ∀ fix ∈ new, fix.typePath = t.full
      ∧ fix.index = t.decl.methods.length
      ∧ fix.Suits method) (hsettled : method.body.Settled ∨ new ≠ []) :
    { state.putType { t with
        decl := { t.decl with methods := t.decl.methods ++ [method] }
        method := none } outer with output }.Coherent before := by
  have hnested := h.nested
  have hlink := h.linkable
  have hdeclared := h.declared
  rw [hblocks] at hnested hdeclared
  rw [entries_of_blocks hblocks] at hlink
  have hnames : method.name ∉ t.decl.methods.map (·.name) := by
    intro hmem
    obtain ⟨other, hother, hname⟩ := List.mem_map.1 hmem
    have hnone := List.find?_eq_none.1 hfresh other hother
    exact hnone (beq_iff_eq.2 hname)
  refine ⟨.type ⟨hnested.sound.full, fun _ => nofun, fun _ => nofun⟩ hnested.tail, ?_, h.listed,
    ?_, h.scope⟩
  · rw [entries_of_blocks rfl]
    show Linkable _ (output.fixes ++ before)
    rw [houtput, List.append_assoc]
    exact hlink.addMethod hpart hnames hlabels hnew hsettled
  · exact hdeclared

/-- The full name of a type that is opened tells what it stands in. -/
theorem fullName_eq (h : state.Coherent before)
    (hplace : state.InSpace ∨ ∃ t outer, state.InType t outer) {name : String} {opened : OpenType}
    (hspace : opened.space = state.scope.path) :
    Parse.fullName state name = Text.join (opened.around state.blocks) name := by
  rcases hplace with hplace | ⟨t, _, hplace⟩
  · have hspaces := h.nested.all_spaces hplace
    have htype : state.typePath = none := by
      unfold typePath
      rw [List.findSome?_eq_none_iff]
      intro block hblock
      obtain ⟨line, rfl⟩ := hspaces block hblock
      rfl
    have haround : opened.around state.blocks = state.scope.path := by
      unfold OpenType.around
      split
      · rename_i parent rest hblocks
        rw [hblocks] at hspaces
        obtain ⟨line, hline⟩ := hspaces _ (.head _)
        cases hline
      · exact hspace
    rw [haround, Parse.fullName, htype]
    exact ScopeStack.qualify_eq h.scope name
  · have htype : state.typePath = some t.full := by
      rw [typePath, hplace.blocks]
      rfl
    rw [Parse.fullName, htype, hplace.blocks]
    rfl

/-- A type is opened under a full name that is new. -/
theorem openType (h : state.Coherent before) {name : String}
    (hname : Text.IsWord name) (attrs : Attributes) (line : Nat)
    (hplace : state.InSpace ∨ ∃ t outer, state.InType t outer)
    (hdeclared : Parse.fullName state name ∉ state.declared)
    (hunknown : state.program.find? (Parse.fullName state name) = none) :
    Coherent before { state with
      declared := Parse.fullName state name :: state.declared
      blocks := .type ⟨{ name, attrs, line }, Parse.fullName state name,
        state.scope.path, none⟩ :: state.blocks } := by
  have hfresh : Parse.fullName state name ∉ state.entries.map (·.full) := by
    rw [entries, List.map_append, List.mem_append, not_or]
    refine ⟨?_, fun hmem => hdeclared (h.declared _ hmem)⟩
    have hnodup := h.linkable.nodup
    rw [entries, List.map_append] at hnodup
    refine Program.not_mem_of_find? ?_ (List.nodup_append.1 hnodup).1 hunknown
    intro entry hentry
    exact h.linkable.sound entry (List.mem_append_left _ hentry)
  refine ⟨.type ⟨h.fullName_eq hplace rfl, fun _ => nofun, fun _ => nofun⟩ h.nested, ?_, h.listed,
    ?_, h.scope⟩
  · refine (h.linkable.addType hname.isPart hfresh).of_perm ?_ fun _ => Iff.rfl
    exact List.perm_middle
  · intro full hfull
    rcases List.mem_cons.1 hfull with rfl | hfull
    · exact .head _
    · exact .tail _ (h.declared full hfull)

/-- A type outside of others is handed to its namespace. -/
theorem closeOutermost (h : state.Coherent before) (hblocks : state.blocks = .type t :: outer)
    (haround : t.around outer = t.space) {output : ParseOutput}
    (houtput : output.fixes = state.output.fixes) :
    Coherent before { state with
      blocks := outer
      output
      program := state.program.addType t.space t.decl } := by
  have hperm := perm_closeOutermost h.nested hblocks haround output
  have hnested := h.nested
  have hdeclared := h.declared
  rw [hblocks] at hnested hdeclared
  refine ⟨hnested.tail, ?_, h.listed.addType .., ?_, h.scope⟩
  · refine h.linkable.of_perm hperm fun fix => ?_
    show fix ∈ output.fixes ++ before ↔ _
    rw [houtput]
  · intro full hmem
    refine hdeclared full ?_
    rw [List.flatMap_cons, List.map_append]
    exact List.mem_append_right _ hmem

/-- A type is handed to the type around it or to its namespace. -/
theorem closeType (h : state.Coherent before) (hblocks : state.blocks = .type t :: outer) :
    (state.closeType t outer).Coherent before := by
  rcases outer with _ | ⟨block, _⟩
  · exact h.closeOutermost hblocks rfl rfl
  · cases block with
    | space | skipped => exact h.closeOutermost hblocks rfl rfl
    | type =>
      have hperm := perm_nest h.nested hblocks
      have hnested := h.nested
      rw [hblocks] at hnested
      have hparent := hnested.tail.sound
      refine ⟨.type ⟨hparent.full, hparent.method, hparent.fresh⟩
        hnested.tail.tail, ?_, h.listed, ?_, h.scope⟩
      · exact h.linkable.of_perm (hperm.append_left _) fun _ => Iff.rfl
      · intro full hmem
        exact h.declared full ((hperm.map _).mem_iff.1 hmem)

theorem closeBlock (h : state.Coherent before) : state.closeBlock.Coherent before := by
  unfold ParseState.closeBlock
  split
  · exact h
  · rename_i line outer hblocks
    obtain ⟨hnested, hlink, hlisted, hdeclared, hscope⟩ := h
    rw [entries] at hlink
    rw [hblocks] at hnested hlink hdeclared
    exact ⟨hnested.tail, hlink, hlisted, hdeclared, hscope.leave⟩
  · rename_i line outer hblocks
    obtain ⟨hnested, hlink, hlisted, hdeclared, hscope⟩ := h
    rw [entries] at hlink
    rw [hblocks] at hnested hlink hdeclared
    exact ⟨hnested.tail, hlink, hlisted, hdeclared, hscope⟩
  · rename_i t outer hblocks
    have hnested := h.nested
    rw [hblocks] at hnested
    obtain ⟨_, hmethod, hfresh⟩ := hnested.sound
    split
    · exact h.closeType hblocks
    · rename_i m hm
      have hsound := hmethod m hm
      split
      · exact h.putMethod hblocks hm rfl fun hm => hm.setMarks _ _ _
      · refine @addMethod state before t outer h hblocks m.finish hsound.part
          (hfresh m hm) hsound.labels_nodup [_] _ rfl ?_ (.inr (List.cons_ne_nil _ _))
        rw [List.forall_mem_singleton]
        exact ⟨rfl, rfl, rfl, hsound.lines, hsound.suits⟩

end Coherent

/-- Every statement keeps a parse coherent. -/
theorem Effect.coherent (heffect : Effect set text state braces next)
    (h : state.Coherent before) : next.Coherent before := by
  cases heffect with
  | close => exact h.closeBlock
  | noteImport =>
    exact ⟨h.nested, h.linkable, h.listed, h.declared, h.scope⟩
  | noteUsing path =>
    exact ⟨h.nested, h.linkable, h.listed, h.declared, h.scope.addImport path⟩
  | noteAlias name =>
    exact ⟨h.nested, h.linkable, h.listed, h.declared, h.scope.addAlias name _⟩
  | noteExternal path =>
    refine ⟨h.nested, ?_, h.listed.addExternal path, h.declared, h.scope⟩
    show Linkable ((state.program.addExternal path).entries ++ _) _
    rw [Program.entries_addExternal]
    exact h.linkable
  | openSpace rooted name line hspace henter =>
    refine ⟨.spaces ?_, h.linkable, h.listed, h.declared, h.scope.enter henter⟩
    exact List.forall_mem_cons.2 ⟨⟨line, rfl⟩, h.nested.all_spaces hspace⟩
  | openType name attrs line hplace hname hdeclared hunknown =>
    exact h.openType hname attrs line hplace hdeclared hunknown
  | @addField t outer field htype hfresh =>
    have hnested := h.nested
    rw [htype.blocks] at hnested
    obtain ⟨hfull, hmethod, hnew⟩ := hnested.sound
    exact h.putType htype.blocks rfl ⟨hfull, hmethod, hnew⟩
  | @addMethod t outer method htype hhead hbodiless hfresh =>
    -- between members no method is open, so this is a method that was closed
    have hsame : { t with decl := { t.decl with
          methods := t.decl.methods ++ [method] } }
        = { t with decl := { t.decl with
          methods := t.decl.methods ++ [method] }, method := none } := by
      rw [← htype.method]
    rw [hsame]
    refine @Coherent.addMethod state before t outer h htype.blocks method
      hhead.name.isPart hfresh ?_ [] _ rfl nofun (.inl ?_)
    · rw [hhead.body]
      exact List.nodup_nil
    · rw [hhead.body]
      exact ⟨nofun, fun _ => nofun⟩
  | @openMethod t outer method htype hhead hfresh =>
    have hnested := h.nested
    rw [htype.blocks] at hnested
    refine h.putType htype.blocks rfl ⟨hnested.sound.full, ?_, ?_⟩
    · rintro opened ⟨⟩
      exact OpenMethod.sound_start hhead.name.isPart _
    · rintro opened ⟨⟩
      exact hfresh
  | openLocals line hmethod =>
    exact h.putMethod hmethod.blocks hmethod.method rfl fun hm =>
      hm.setMarks _ _ _
  | passComma => exact h
  | addLocal var hlocals =>
    exact h.putMethod hlocals.blocks hlocals.method rfl fun hm =>
      hm.setLocals _
  | placeLabel name line hmethod hplaced =>
    exact h.putMethod hmethod.blocks hmethod.method (OpenMethod.name_placeLabel hplaced)
      fun hm => hm.placeLabel hplaced
  | @addInstruction t outer m form operands implicit log scope args line hmethod hform hread hlog =>
      have hfits := set.length_operands hform hread
      have hnext := @Coherent.putMethod state before t outer h
        hmethod.blocks m (m.addInstruction ⟨form.opcode, operands, line⟩
          implicit) hmethod.method rfl fun hm => hm.addInstruction hfits implicit
      exact ⟨hnext.nested, hnext.linkable, hnext.listed, hnext.declared, hnext.scope⟩

theorem closeAll_of_closed (h : state.blocks = []) : state.closeAll = state := by
  unfold closeAll
  rw [depth_eq, h]
  rfl

end ParseState

end StackAsm
