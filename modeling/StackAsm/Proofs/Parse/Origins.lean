/-
Where methods come from. In a text without errors a method joins its type
in one of two ways: it is declared without a body, or the brace of its
body is closed by a statement (`Effect.exists_gain`). So every method of a
program that was read can be traced back to the round in which reading
stood at that brace (`Program.origin_parse`).
-/
import StackAsm.Proofs.Parse.Recovery

namespace StackAsm

-- ==== entries

/-- Whether the type of that full name has the method. -/
def TypeEntry.Has (entries : List TypeEntry) (full : String) (method : Method) : Prop :=
  ∃ entry ∈ entries, entry.full = full ∧ method ∈ entry.methods

theorem TypeEntry.Has.of_perm {entries others : List TypeEntry}
    {full : String} {method : Method} (h : Has entries full method)
    (hperm : entries.Perm others) : Has others full method := by
  obtain ⟨entry, hentry, hhas⟩ := h
  exact ⟨entry, hperm.mem_iff.1 hentry, hhas⟩

/-- Whether what is there later has that method of that type more, if
any, and otherwise the same. -/
def TypeEntry.Gains (entries : List TypeEntry)
    (added : Option (String × Method)) (later : List TypeEntry) : Prop :=
  ∀ full method, Has later full method
    ↔ Has entries full method ∨ added = some (full, method)

namespace TypeEntry.Gains

variable {entries later left right : List TypeEntry} {path name : String} {methods : List Method}

theorem of_perm (h : later.Perm entries) : Gains entries none later := by
  intro full method
  rw [or_iff_left nofun]
  exact ⟨(Has.of_perm · h), (Has.of_perm · h.symm)⟩

theorem of_eq (h : later = entries) : Gains entries none later := of_perm (h ▸ .refl _)

/-- An entry that has no methods brings none. -/
theorem of_empty (h : later.Perm (⟨path, name, []⟩ :: entries)) : Gains entries none later := by
  intro full method
  have hsame := of_perm h full method
  simpa [Has] using hsame

theorem of_concat (added : Method) :
    Gains (left ++ ⟨path, name, methods⟩ :: right) (some (path, added))
      (left ++ ⟨path, name, methods ++ [added]⟩ :: right) := by
  intro full method
  simp only [Has, mem_middle]
  simp only [or_and_right, exists_or, exists_eq_left, List.mem_append,
    List.mem_singleton, Option.some.injEq, Prod.mk.injEq]
  grind

theorem exists_none (h : Gains entries none later) {P : String → Method → Prop} :
    ∃ added, Gains entries added later
      ∧ ∀ full method, added = some (full, method) → P full method :=
  ⟨none, h, fun _ _ => nofun⟩

end TypeEntry.Gains

open TypeEntry

-- ==== states

namespace ParseState

variable {set : InstructionSet} {text : List Char} {braces : List Brace}
  {state next : ParseState} {t changed : OpenType} {outer : List Block}
  {full : String} {method : Method}

/-- A change of the open type that keeps its entries keeps all of them. -/
theorem entries_putType (hblocks : state.blocks = .type t :: outer)
    (hchanged : changed.entries = t.entries) :
    (state.putType changed outer).entries = state.entries := by
  unfold entries
  rw [hblocks, List.flatMap_cons]
  show state.program.entries ++ (changed.entries ++ _) = _
  rw [hchanged]
  rfl

/-- A type that gets one more method has no other new one. -/
theorem gains_addMethod (hblocks : state.blocks = .type t :: outer)
    (added : Method) (opened : Option OpenMethod) :
    Gains state.entries (some (t.full, added)) (state.putType { t with
      decl := { t.decl with methods := t.decl.methods ++ [added] }
      method := opened } outer).entries := by
  rw [entries_of_blocks hblocks, entries_of_blocks rfl]
  exact .of_concat added

/-- A closing brace brings a method only if it closes its body. -/
theorem exists_gain_of_closeBlock (hnested : Block.Nested state.blocks) :
    ∃ added, Gains state.entries added state.closeBlock.entries
      ∧ ∀ full method, added = some (full, method) → ∃ t outer m,
        state.InMethod t outer m ∧ t.full = full ∧ m.finish = method := by
  unfold closeBlock
  split
  · exact (Gains.of_eq rfl).exists_none
  · rename_i line outer hblocks
    refine (Gains.of_eq ?_).exists_none
    rw [entries, entries, hblocks]
    rfl
  · rename_i line outer hblocks
    refine (Gains.of_eq ?_).exists_none
    rw [entries, entries, hblocks]
    rfl
  · rename_i t outer hblocks
    split
    · exact (Gains.of_perm (perm_closeType hnested hblocks)).exists_none
    · rename_i m hm
      split
      · exact (Gains.of_eq (entries_putType hblocks rfl)).exists_none
      · rename_i hlocals
        rw [Option.not_isSome_iff_eq_none] at hlocals
        refine ⟨some (t.full, m.finish), gains_addMethod hblocks _ _, ?_⟩
        rintro _ _ ⟨⟩
        exact ⟨t, outer, m, ⟨hblocks, hm, hlocals⟩, rfl, rfl⟩

/-- A statement takes no method away, and brings one if it declares one
without a body or closes the body of one. -/
theorem Effect.exists_gain (heffect : Effect set text state braces next)
    (hnested : Block.Nested state.blocks) :
    ∃ added, Gains state.entries added next.entries
      ∧ ∀ full method, added = some (full, method) →
        (method.attrs.isBodiless = true ∧ method.body.labels = [])
        ∨ ∃ t outer m, state.InMethod t outer m ∧ text.head? = some '\x7d'
          ∧ t.full = full ∧ m.finish = method := by
  cases heffect with
  | close hopen htext =>
    obtain ⟨added, hgains, hadded⟩ := exists_gain_of_closeBlock hnested
    refine ⟨added, hgains, fun full method hnew => .inr ?_⟩
    obtain ⟨t, outer, m, hmethod, hfinish⟩ := hadded full method hnew
    exact ⟨t, outer, m, hmethod, congrArg List.head? htext, hfinish⟩
  | noteExternal =>
    refine (Gains.of_eq ?_).exists_none
    unfold entries
    rw [Program.entries_addExternal]
  | openType =>
    exact (Gains.of_empty List.perm_middle).exists_none
  | addField field htype =>
    exact (Gains.of_eq (entries_putType htype.blocks rfl)).exists_none
  | addMethod added htype hhead hbodiless =>
    refine ⟨_, gains_addMethod htype.blocks added _, ?_⟩
    rintro _ _ ⟨⟩
    rw [hhead.body]
    exact .inl ⟨hbodiless, rfl⟩
  | openMethod added htype =>
    exact (Gains.of_eq (entries_putType htype.blocks rfl)).exists_none
  | openLocals line hmethod =>
    exact (Gains.of_eq (entries_putType hmethod.blocks rfl)).exists_none
  | addLocal var hlocals =>
    exact (Gains.of_eq (entries_putType hlocals.blocks rfl)).exists_none
  | placeLabel name line hmethod | addInstruction scope args line hmethod =>
    exact (Gains.of_eq (entries_putType hmethod.blocks rfl)).exists_none
  | _ => exact (Gains.of_eq rfl).exists_none

-- ==== runs

/-- Where a method comes from that is new in a parse without errors: it
has no body, or after so many rounds reading stood at the brace that
closes its body. -/
inductive Origin (set : InstructionSet) (start : ParseState)
    (full : String) (method : Method) : Prop where
  | bodiless (hbodiless : method.attrs.isBodiless = true)
      (hlabels : method.body.labels = []) : Origin set start full method
  | closed {rounds : Nat} {t : OpenType} {outer : List Block} {m : OpenMethod}
      (herrors : (run set rounds start).log.errorCount = start.log.errorCount)
      (hmethod : (run set rounds start).atStatement.InMethod t outer m)
      (hbrace : (run set rounds start).atStatement.cursor.peek? = some '\x7d')
      (hfull : t.full = full) (hfinish : m.finish = method) : Origin set start full method

theorem Moved.entries (h : state.Moved next) : next.entries = state.entries := by
  obtain ⟨_, _, -, rfl⟩ := h
  rfl

theorem InMethod.of_moved {m : OpenMethod} (h : next.InMethod t outer m)
    (hmoved : state.Moved next) : state.InMethod t outer m :=
  ⟨hmoved.blocks.symm.trans h.blocks, h.method, h.localsLine⟩

/-- Without errors no block is skipped, and a parse is coherent as it
is. -/
theorem Coherent.run {start : ParseState} {before : List BranchFixes}
    (h : start.Coherent before) {rounds : Nat}
    (herrors : (run set rounds start).log.errorCount
      = start.log.errorCount) :
    (run set rounds start).Coherent before := by
  refine @run_invariant set start (Coherent before) ?_ ?_ ?_ rounds h herrors
  · exact fun state _ h =>
      ⟨h.nested, h.linkable, h.listed, h.declared, h.scope⟩
  · exact fun state h => isSkipping_of_unskipped h.nested.unskipped
  · rintro state _ _ h ⟨_, htakes, heffect⟩
    exact heffect.coherent (h.moved htakes.moved)

/-- Every method of a parse without errors was there before or has its
origin in it. -/
theorem origin_run {start : ParseState} {before : List BranchFixes}
    (hstart : start.Coherent before) {rounds : Nat}
    (herrors : (run set rounds start).log.errorCount
      = start.log.errorCount) (h : Has (run set rounds start).entries full method) :
    Has start.entries full method ∨ Origin set start full method := by
  induction rounds with
  | zero => exact .inl h
  | succ rounds ih =>
    cases hend : (run set rounds start).cursor.skipTrivia.atEnd with
    | true =>
      rw [run_succ_of_end set hend] at herrors h
      exact ih herrors h
    | false =>
      rw [run_succ_of_more set hend] at herrors h
      have hround := (adds_advance set (run set rounds start).atStatement).errorCount_le
      have hsame : (run set rounds start).log.errorCount = start.log.errorCount :=
        Nat.le_antisymm (herrors ▸ hround) (adds_run set rounds start).errorCount_le
      have hnested : Block.Nested (run set rounds start).atStatement.blocks :=
        (hstart.run hsame).nested
      obtain ⟨_, read, htakes, heffect⟩ := turn_of_advance
        (isSkipping_of_unskipped hnested.unskipped) (herrors.trans hsame.symm)
      have hread : Block.Nested read.blocks := by
        rw [htakes.moved.blocks]
        exact hnested
      obtain ⟨_, hgains, hadded⟩ := heffect.exists_gain hread
      rcases (hgains full method).1 h with hbefore | hnew
      · rw [htakes.moved.entries] at hbefore
        exact ih hsame hbefore
      rcases hadded full method hnew with ⟨hbodiless, hlabels⟩
        | ⟨_, _, _, hmethod, hbrace, hfull, hfinish⟩
      · exact .inr (.bodiless hbodiless hlabels)
      · exact .inr (.closed hsame (hmethod.of_moved htakes.moved) hbrace hfull hfinish)

end ParseState

-- ==== programs

namespace Program

variable {program : Program} {set : InstructionSet} {source full : String}
  {log : Log} {before fixes : List BranchFixes} {method : Method}

theorem has_iff {entry : String × Method} :
    Has program.entries entry.1 entry.2 ↔ entry ∈ program.methods := by
  refine ⟨?_, exists_entry_of_mem_methods⟩
  rintro ⟨type, htype, hfull, hmethod⟩
  rw [methods_eq, List.mem_flatMap]
  refine ⟨type, htype, List.mem_map.2 ⟨entry.2, hmethod, ?_⟩⟩
  rw [hfull]

/-- Every method of a program was there before the text was read or has
its origin in it. -/
theorem origin_parse (hlink : Linkable program.entries before) (hlisted : program.Listed)
    (herrors : (program.parse set source log).log.errorCount
      = log.errorCount) (h : Has (program.parse set source log).program.entries full method) :
    Has program.entries full method
      ∨ ParseState.Origin set (.ofSource program source log) full
        method := by
  obtain ⟨hread, hclosed⟩ := errorCount_toEnd herrors
  have hstart := ParseState.coherent_ofSource source log hlink hlisted
  have hend : ((ParseState.ofSource program source log).toEnd
      set).Coherent before := hstart.run hread
  have hblocks := ParseState.blocks_of_closeAll hend.nested.unskipped hclosed
  have hentries : (program.parse set source log).program.entries
      = ((ParseState.ofSource program source log).toEnd set).entries := by
    rw [ParseState.entries, hblocks]
    show (ParseState.closeAll _).program.entries = _
    rw [ParseState.closeAll_of_closed hblocks, List.flatMap_nil, List.append_nil]
  rw [hentries] at h
  rcases ParseState.origin_run hstart hread h with hbefore | horigin
  · change Has (program.entries ++ []) full method at hbefore
    rw [List.append_nil] at hbefore
    exact .inl hbefore
  · exact .inr horigin

end Program

end StackAsm
