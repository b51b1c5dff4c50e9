/-
The table of labels of a method. It is set up in advance, by a search that
knows no statements, and it is never changed but to place labels. Whatever
a text holds, a statement that places a label finds it in the table, if
the table has room for all that were found. And in a program that was read
and linked without errors the table of a method is what the search found
behind the brace of its body: every label is placed, in the order of the
table and inside the code (`Program.labels_reserved`).
-/
import StackAsm.Proofs.Build.Reading
import StackAsm.Proofs.Parse.Origins
import StackAsm.Proofs.Parse.Reserved

namespace StackAsm

open Cursor LabelSearch

-- ==== blocks

/-- Whether `text` stands behind the brace of the innermost block that is
open at `rest`. -/
def InnermostBlock (source text rest : List Char) : Prop :=
  ∃ before body, source = before ++ '\x7b' :: text
    ∧ Region.code.behind before = .code
    ∧ text = body ++ rest
    ∧ Brace.depthBehind? 0 (Brace.listOf body) = some 0

variable {source text rest : List Char} {found : List String} {m : OpenMethod}

theorem Body.innermost (h : Body source text rest found 0 m) : InnermostBlock source text rest := by
  obtain ⟨before, hsource, hcode⟩ := h.opened
  obtain ⟨_, ⟨body, htext, rfl, -⟩, hdepth⟩ := h.passed
  exact ⟨before, body, hsource, hcode, htext, hdepth⟩

-- ==== tables

/-- Whether the labels of a body are those that were found, numbered by
their place and placed one after the other inside the code. -/
structure MethodBody.LabelTable (body : MethodBody) (found : List String) : Prop where
  names : body.labels.map (·.name) = found
  nodup : found.Nodup
  indices : ∀ (place : Nat) (label : Label),
    body.labels[place]? = some label → label.index.toNat = place
  offsets : ∃ offsets : List UInt32, body.labels.map (·.offset) = offsets.map some
      ∧ offsets.Pairwise (· ≤ ·) ∧ ∀ offset ∈ offsets, offset.toNat ≤ body.instructions.length

/-- Where a body is closed, everything that was found is placed. -/
theorem Body.complete (h : Body source text rest found 0 m)
    (hbrace : rest.head? = some '\x7d') (hplaced : m.Placed found.length) :
    m.labels.map (·.name) = labelNames text
      ∧ ∃ places : List Nat, places.Pairwise (· ≤ ·)
        ∧ (∀ place ∈ places, place ≤ m.size)
        ∧ m.labels.map (·.offset)
          = places.map fun place => some (UInt32.ofNat place) := by
  obtain ⟨_, rfl⟩ := List.head?_eq_some_iff.1 hbrace
  have hfound : labelNames text = found := h.search.trans namesFrom_end
  obtain ⟨places, hcount, hordered, hle, unplaced, hoffsets, -⟩ := hplaced
  have hlengths := congrArg List.length hoffsets
  have hnames := congrArg List.length h.names
  rw [List.length_append, List.length_map, List.length_map, hcount, ← hfound] at hlengths
  rw [List.length_map, List.length_take] at hnames
  -- the table is no longer than what was found, so nothing is left over
  have hnil : unplaced = [] := by
    apply List.eq_nil_of_length_eq_zero
    omega
  refine ⟨?_, places, hordered, hle, ?_⟩
  · rw [h.names]
    apply List.take_of_length_le
    omega
  · rw [hoffsets, hnil, List.append_nil]

/-- A method that is finished there, if it is not too long, has its labels
as they were found. -/
theorem Body.labelTable (h : Body source text rest found 0 m)
    (hbrace : rest.head? = some '\x7d') (hplaced : m.Placed found.length)
    {method : Method} (haims : m.finish.Aims method) (hdistinct : method.Distinct)
    (hsmall : method.body.instructions.length < UInt32.size) :
    method.body.LabelTable (labelNames text) := by
  obtain ⟨hnames, places, hordered, hle, hoffsets⟩ := h.complete hbrace hplaced
  obtain ⟨code, hcode, rfl⟩ := haims
  have hlength : code.length = m.size := by
    have hlengths := congrArg List.length hcode
    rw [List.length_map, List.length_map] at hlengths
    rw [hlengths, m.size_eq]
    exact List.length_reverse
  change code.length < UInt32.size at hsmall
  have hplace : ∀ place ∈ places, (UInt32.ofNat place).toNat = place := by
    intro place hmem
    have hmax := hle place hmem
    exact UInt32.toNat_ofNat_of_lt' (show place < UInt32.size by omega)
  refine ⟨hnames, nodup_labelNames text, hdistinct.indices, places.map UInt32.ofNat, ?_, ?_, ?_⟩
  · rw [List.map_map]
    exact hoffsets
  · rw [List.pairwise_map]
    refine hordered.imp_of_mem fun {first second} hfirst hsecond hle => ?_
    rw [UInt32.le_iff_toNat_le, hplace first hfirst, hplace second hsecond]
    exact hle
  · intro offset hoffset
    obtain ⟨place, hmem, rfl⟩ := List.mem_map.1 hoffset
    show _ ≤ code.length
    rw [hplace place hmem, hlength]
    exact hle place hmem

-- ==== states

/-- The state in which the next statement of a source is read, after so
many rounds. -/
def Program.statementAfter (program : Program) (set : InstructionSet)
    (source : String) (log : Log) (rounds : Nat) : ParseState :=
  ((ParseState.ofSource program source log).run set rounds).atStatement

/-- Whether the table of an open method is what a search from `body` on
finds, as far as there is room. `body` is where the innermost block
starts. If a label is declared right here, it was found, it is missing
only from a full table, and it is placed without a change of names. -/
structure ParseState.Reserves (source : List Char) (state : ParseState)
    (m : OpenMethod) (body : Cursor) : Prop where
  innermost : InnermostBlock source body.rest state.cursor.rest
  names : m.labels.map (·.name) = (body.labelsAhead.map (·.1)).take OpenMethod.labelLimit
  label : ∀ word, state.cursor.atLabel = true → state.cursor.word? = some word →
      String.ofList word ∈ body.labelsAhead.map (·.1)
      ∧ (String.ofList word ∉ m.labels.map (·.name) → m.labels.length = OpenMethod.labelLimit)
      ∧ ∀ line placed, m.placeLabel (String.ofList word) line = .ok placed →
        placed.labels.map (·.name) = m.labels.map (·.name)

/-- Whether instructions of a method are read. -/
def ParseState.readsBody (state : ParseState) : Bool := match state.blocks with
  | .type t :: _ => t.method.any (·.localsLine.isNone)
  | _ => false

theorem ParseState.exists_inMethod {state : ParseState} (h : state.readsBody = true) :
    ∃ t outer m, state.InMethod t outer m := by
  unfold readsBody at h
  split at h
  · rename_i t outer hblocks
    obtain ⟨m, hm, hline⟩ := (Option.any_eq_true ..).1 h
    exact ⟨t, outer, m, hblocks, hm, Option.isNone_iff_eq_none.1 hline⟩
  · cases h

namespace Program

variable {program : Program} {set : InstructionSet} {source : String} {log : Log}

theorem bodies_statementAfter (rounds : Nat) :
    ParseState.Bodies source.toList log.errorCount (program.statementAfter set source log rounds) :=
  (ParseState.bodies_run set program source log rounds).trivia _

theorem exists_reserves {rounds : Nat} {t : OpenType} {outer : List Block}
    (hmethod : (program.statementAfter set source log rounds).InMethod t outer m) :
    ∃ body, (program.statementAfter set source log rounds).Reserves source.toList m body := by
  obtain ⟨text, _, hbody, -⟩ := (bodies_statementAfter rounds).body hmethod.inside
  have hahead := names_labelsAhead ⟨text, .start⟩
  refine ⟨⟨text, .start⟩, hbody.innermost, ?_, ?_⟩
  · rw [hahead]
    exact hbody.names
  · intro word hat hword
    obtain ⟨same, _, hsame, hlabel⟩ := labelAt_of_atLabel hat
    obtain rfl : word = same := Option.some.inj (hword.symm.trans hsame)
    have hmem := hbody.mem_of_label hlabel
    rw [hahead]
    exact ⟨hmem, hbody.length_of_not_mem hmem, fun _ _ hplaced =>
      hbody.names_placeLabel hlabel hplaced⟩

/-- Where the body of a method was closed in a text without errors, its
labels are as they were found. -/
theorem exists_labelTable {rounds : Nat} {t : OpenType} {outer : List Block} {method : Method}
    (herrors : (program.statementAfter set source log rounds).log.errorCount
      = log.errorCount)
    (hmethod : (program.statementAfter set source log rounds).InMethod t outer m)
    (hbrace : (program.statementAfter set source log rounds).cursor.peek?
      = some '\x7d') (haims : m.finish.Aims method) (hdistinct : method.Distinct)
    (hsmall : method.body.instructions.length < UInt32.size) :
    ∃ body : Cursor, InnermostBlock source.toList body.rest
        (program.statementAfter set source log rounds).cursor.rest
      ∧ method.body.LabelTable (body.labelsAhead.map (·.1)) := by
  obtain ⟨text, _, hbody, hplaced⟩ := (bodies_statementAfter rounds).body hmethod.inside
  have hclear : Clear 0 (program.statementAfter set source log rounds).cursor.rest := by
    refine .inr fun hcolon => ?_
    exact absurd (Option.some.inj (hbrace.symm.trans hcolon)) (by decide)
  refine ⟨⟨text, .start⟩, hbody.innermost, ?_⟩
  rw [names_labelsAhead]
  exact hbody.labelTable hbrace (hplaced herrors hclear) haims hdistinct hsmall

/-- Fixes keep the methods of a program tidy. -/
theorem Sound.distinct_fixBranches {before : List BranchFixes}
    (h : program.Sound set before) {todo : List BranchFixes}
    (htodo : ∀ fix ∈ todo, fix ∈ before) {entry : String × Method}
    (hentry : entry ∈ (program.fixBranches log todo).1.methods) :
    entry.2.Distinct := by
  have htidy := h.tidy.of_aim TidyMembers.aims (aim_fixBranches h.linkable htodo log)
  obtain ⟨_, _, hmembers, hmem⟩ := htidy.of_methods hentry
  exact (hmembers.methods entry.2 hmem).toDistinct

/-- The program with a text read into it and its branches fixed. -/
def parseFixed (program : Program) (set : InstructionSet)
    (source : String) (log : Log) : Program × Log × Nat :=
  let parsed := program.parse set source log
  parsed.program.fixBranches parsed.log parsed.output.fixes

theorem errorCount_parseFixed
    (h : (program.parseFixed set source log).2.1.errorCount
      = log.errorCount) :
    (program.parse set source log).log.errorCount = log.errorCount := by
  have hlow := (program.adds_parse set source log).errorCount_le
  have hhigh : (program.parse set source log).log.errorCount
      ≤ (program.parseFixed set source log).2.1.errorCount := errorCount_le_fixBranches ..
  omega

/-- Labels are as they were found in advance. Whatever a text holds, at
every statement of a method the table has the labels found when its body
was opened, and no statement brings another one. If a text is read into
the program of earlier ones and linked without errors, then every method
is one of the earlier texts, or has no body and no labels, or there is a
round in which reading stood at the brace that closes its body; and then
its table is what a search from the start of that body finds. -/
theorem labels_reserved (set : InstructionSet) (source : String) (log : Log) :
    (∀ program rounds t outer m, (statementAfter program set source log rounds).InMethod t outer m →
      ∃ body, (statementAfter program set source log rounds).Reserves source.toList m body)
    ∧ ∀ texts, let program := parseAll set texts
      (program.parseFixed set source log).2.1.errorCount = log.errorCount →
      ∀ entry ∈ (program.parseFixed set source log).1.methods,
        entry.2.body.instructions.length < UInt32.size →
        (∃ old, (entry.1, old) ∈ program.methods ∧ old.Aims entry.2)
        ∨ (entry.2.attrs.isBodiless = true ∧ entry.2.body.labels = [])
        ∨ ∃ (rounds : Nat) (t : OpenType) (outer : List Block) (m : OpenMethod) (body : Cursor),
          let state := program.statementAfter set source log rounds
          state.InMethod t outer m ∧ state.cursor.peek? = some '\x7d'
          ∧ t.full = entry.1 ∧ m.finish.Aims entry.2
          ∧ InnermostBlock source.toList body.rest state.cursor.rest
          ∧ entry.2.body.LabelTable (body.labelsAhead.map (·.1)) := by
  refine ⟨fun program rounds t outer m => exists_reserves, ?_⟩
  intro texts program herrors entry hentry hsmall
  obtain ⟨before, hsound⟩ := sound_parseAll set texts
  have hparsed := hsound.parse source log
  have htodo : ∀ fix ∈ (program.parse set source log).output.fixes,
      fix ∈ before ++ (program.parse set source log).output.fixes :=
    fun fix hfix => List.mem_append_right _ hfix
  have hdistinct := hparsed.distinct_fixBranches htodo hentry
  obtain ⟨method, hlisted, haim⟩ := exists_aim_eq
    (aim_fixBranches hparsed.linkable htodo (program.parse set source log).log) hentry
  have haims := Method.aims_of_aim haim
  have hread := errorCount_parseFixed herrors
  rcases origin_parse hsound.linkable hsound.listed hread (has_iff.2 hlisted) with hold | horigin
  · exact .inl ⟨method, has_iff.1 hold, haims⟩
  · cases horigin with
    | bodiless hbodiless hlabels =>
      obtain ⟨code, -, hsame⟩ := haims
      rw [hsame]
      exact .inr (.inl ⟨hbodiless, hlabels⟩)
    | closed hclean hmethod hbrace hfull hfinish =>
      subst hfinish
      obtain ⟨body, hinnermost, htable⟩ := exists_labelTable hclean hmethod
        hbrace haims hdistinct hsmall
      exact .inr (.inr ⟨_, _, _, _, body, hmethod, hbrace, hfull, haims, hinnermost, htable⟩)

end Program

namespace Sample

/-- A method that branches over a comment with a colon to a label behind
its last instruction. -/
def steps : String :=
  ".type A \x7b\n.method m() \x7b\nstart:\nnop ; not a label:\njmp end\n"
    ++ "end:\n\x7d\n\x7d\n"

theorem read_steps :
    let state := Program.statementAfter {} .standard steps {} 2
    let parsed := (Program.parseAll .standard []).parseFixed .standard steps {}
    state.readsBody = true ∧ state.cursor.atLabel = true
      ∧ parsed.2.1.errorCount = ({} : Log).errorCount
      ∧ parsed.1.methods.map (fun entry => entry.2.body.labels)
        = [[⟨"start", 0, some 0⟩, ⟨"end", 1, some 2⟩]]
      ∧ ∀ entry ∈ parsed.1.methods, entry.2.attrs.isBodiless = false
        ∧ entry.2.body.instructions.length < UInt32.size := by
  decide +kernel

/-- In the third round a label is read that was reserved. The sample is
read and linked without errors, and both its labels are placed. -/
theorem labels_reserved_steps :
    (∃ t outer m body, (Program.statementAfter {} .standard steps {} 2).InMethod t outer m
      ∧ (Program.statementAfter {} .standard steps {} 2).cursor.atLabel
        = true
      ∧ (Program.statementAfter {} .standard steps {} 2).Reserves steps.toList m body)
    ∧ ((Program.parseAll .standard []).parseFixed .standard steps
        {}).2.1.errorCount = ({} : Log).errorCount
    ∧ ((Program.parseAll .standard []).parseFixed .standard steps
        {}).1.methods.map (fun entry => entry.2.body.labels)
      = [[⟨"start", 0, some 0⟩, ⟨"end", 1, some 2⟩]]
    ∧ ∀ entry ∈ ((Program.parseAll .standard []).parseFixed .standard steps
        {}).1.methods, ∃ body : Cursor,
      entry.2.body.LabelTable (body.labelsAhead.map (·.1)) := by
  obtain ⟨hreserves, hlinked⟩ := Program.labels_reserved .standard steps {}
  obtain ⟨hreads, hlabel, herrors, hplaced, hmethods⟩ := read_steps
  obtain ⟨t, outer, m, hmethod⟩ := ParseState.exists_inMethod hreads
  obtain ⟨body, hbody⟩ := hreserves {} 2 t outer m hmethod
  refine ⟨⟨t, outer, m, body, hmethod, hlabel, hbody⟩, herrors, hplaced, fun entry hentry => ?_⟩
  obtain ⟨hbodied, hsmall⟩ := hmethods entry hentry
  rcases hlinked [] herrors entry hentry hsmall with ⟨old, hold, -⟩
    | ⟨hbodiless, -⟩ | ⟨_, _, _, _, body, -, -, -, -, -, htable⟩
  · cases hold
  · rw [hbodied] at hbodiless
    cases hbodiless
  · exact ⟨body, htable⟩

end Sample

end StackAsm
