/-
Labels are reserved in advance. When the body of a method is opened, a
search goes ahead to its end and the table of labels is set up with what
it finds; the statements of the body are read afterwards, and some of them
place a label. `Body` says how far that search has come where reading is:
as reading goes on from statement to statement, or from line to line where
a statement is refused, the search comes along. So a label that is placed
is one that was found (`Body.prefix_of_label`), and in a text without
errors the labels are placed one after the other in the order in which
they were found (`Body.step`).
-/
import StackAsm.Proofs.Parse.Body
import StackAsm.Proofs.Parse.Tidy

namespace StackAsm

open Block Cursor LabelSearch

-- ==== tables

namespace OpenMethod

variable {m after : OpenMethod} {count : Nat}

/-- Whether the labels at the front of the table are placed there, each at
or behind the one before it, and the others are not placed. -/
structure Places (m : OpenMethod) (places : List Nat) : Prop where
  ordered : places.Pairwise (· ≤ ·)
  le_size : ∀ place ∈ places, place ≤ m.size
  offsets : ∃ unplaced : List (Option UInt32), m.labels.map (·.offset)
        = places.map (fun place => some (UInt32.ofNat place)) ++ unplaced
      ∧ ∀ offset ∈ unplaced, offset = none

/-- Whether so many labels are placed, in the order of the table. -/
def Placed (m : OpenMethod) (count : Nat) : Prop :=
  ∃ places : List Nat, places.length = count ∧ m.Places places

theorem placed_start (method : Method) (reserved : List (String × Nat)) :
    (start method reserved).Placed 0 := by
  refine ⟨[], rfl, .nil, nofun, _, (List.nil_append _).symm, ?_⟩
  intro offset hoffset
  obtain ⟨_, hlabel, rfl⟩ := List.mem_map.1 hoffset
  obtain ⟨_, _, rfl⟩ := List.mem_mapIdx.1 hlabel
  rfl

/-- With the same labels and no less code as many are placed. -/
theorem Placed.of_labels (h : m.Placed count)
    (hlabels : after.labels = m.labels) (hsize : m.size ≤ after.size) :
    after.Placed count := by
  obtain ⟨places, hcount, hordered, hle, hoffsets⟩ := h
  refine ⟨places, hcount, hordered, ?_, ?_⟩
  · exact fun place hplace => Nat.le_trans (hle place hplace) hsize
  · rw [hlabels]
    exact hoffsets

/-- A label that is not placed stands behind those that are. -/
theorem Placed.le_of_none (h : m.Placed count) {place : Nat} {label : Label}
    (hlabel : m.labels[place]? = some label) (hnone : label.offset = none) :
    count ≤ place := by
  obtain ⟨_, rfl, -, -, _, hoffsets, -⟩ := h
  by_contra hlt
  rw [Nat.not_le] at hlt
  have hoffset : (m.labels.map (·.offset))[place]? = some none := by
    rw [List.getElem?_map, hlabel, Option.map_some, hnone]
  rw [hoffsets, List.getElem?_append_left (by rwa [List.length_map]),
    List.getElem?_map, List.getElem?_eq_getElem hlt] at hoffset
  cases hoffset

/-- The next label of the table is placed behind the code so far. -/
theorem Placed.place (h : m.Placed count) {label : Label} (hlabel : m.labels[count]? = some label)
    (hlabels : after.labels = m.labels.set count
      { label with offset := some m.nextOffset })
    (hsize : after.size = m.size) : after.Placed (count + 1) := by
  obtain ⟨places, rfl, hordered, hle, unplaced, hoffsets, hnone⟩ := h
  have hnext : unplaced[0]? = some label.offset := by
    have hoffset : (m.labels.map (·.offset))[places.length]? = some label.offset := by
      rw [List.getElem?_map, hlabel]
      rfl
    rwa [hoffsets, List.getElem?_append_right (by simp), List.length_map, Nat.sub_self] at hoffset
  cases unplaced with
  | nil => cases hnext
  | cons first unplaced =>
    refine ⟨places ++ [m.size], by simp, ?_, ?_, unplaced, ?_, (List.forall_mem_cons.1 hnone).2⟩
    · rw [List.pairwise_append]
      refine ⟨hordered, List.pairwise_singleton .., ?_⟩
      intro place hplace last hlast
      rw [List.mem_singleton.1 hlast]
      exact hle place hplace
    · rw [List.forall_mem_append, List.forall_mem_singleton, hsize]
      exact ⟨hle, Nat.le_refl _⟩
    · rw [hlabels, List.map_set, hoffsets, List.set_append_right _ _ (by
        simp), List.length_map, Nat.sub_self, List.set_cons_zero,
        List.map_append, List.append_assoc]
      rfl

end OpenMethod

-- ==== bodies

/-- Whether no colon is ahead right in the body. In front of one the
search has noted a word that no statement has placed. -/
def Clear (depth : Nat) (rest : List Char) : Prop := depth ≠ 0 ∨ rest.head? ≠ some ':'

/-- How a text is read inside the body of a method: behind its brace there
is `text`, reading has come to `rest` with so many blocks of the body
open, and there the search for its labels has found the names `found`. -/
structure Body (source text rest : List Char) (found : List String)
    (depth : Nat) (m : OpenMethod) : Prop where
  opened : ∃ before, source = before ++ '\x7b' :: text ∧ Region.code.behind before = .code
  passed : ∃ braces, Passes braces text rest ∧ Brace.depthBehind? 0 braces = some depth
  search : labelNames text = namesFrom .code false depth found rest
  names : m.labels.map (·.name) = (labelNames text).take OpenMethod.labelLimit

namespace Body

variable {source text rest behind : List Char} {found later : List String}
  {depth last : Nat} {m after : OpenMethod} {braces : List Brace} {name : String} {line : Nat}

theorem move (h : Body source text rest found depth m) (hpasses : Passes braces rest behind)
    (hdepth : Brace.depthBehind? depth braces = some last)
    (hsearch : namesFrom .code false depth found rest
      = namesFrom .code false last later behind)
    (hnames : after.labels.map (·.name) = m.labels.map (·.name)) :
    Body source text behind later last after := by
  obtain ⟨front, hfront, hbefore⟩ := h.passed
  refine ⟨h.opened, ⟨front ++ braces, hfront.trans hpasses, ?_⟩,
    h.search.trans hsearch, hnames.trans h.names⟩
  rw [Brace.depthBehind?_append, hbefore]
  exact hdepth

theorem found_prefix (h : Body source text rest found depth m) : found <+: labelNames text := by
  rw [h.search]
  exact prefix_namesFrom ..

-- ==== placing labels

/-- What is read as a label is the next name found, or one found
before. -/
theorem prefix_of_label (h : Body source text rest found 0 m) (hlabel : LabelAt rest name behind) :
    addName found name <+: labelNames text := by
  rw [h.search, namesFrom_label hlabel]
  exact prefix_namesFrom ..

theorem mem_of_label (h : Body source text rest found 0 m)
    (hlabel : LabelAt rest name behind) : name ∈ labelNames text :=
  (h.prefix_of_label hlabel).subset (mem_addName found name)

/-- Only a full table leaves out a name that was found. -/
theorem length_of_not_mem (h : Body source text rest found depth m) (hname : name ∈ labelNames text)
    (hnew : name ∉ m.labels.map (·.name)) :
    m.labels.length = OpenMethod.labelLimit := by
  have hlength : m.labels.length = min OpenMethod.labelLimit (labelNames text).length := by
    rw [← List.length_map (·.name), h.names, List.length_take]
  by_cases hroom : (labelNames text).length ≤ OpenMethod.labelLimit
  · rw [h.names, List.take_of_length_le hroom] at hnew
    exact absurd hname hnew
  · omega

/-- A label is placed where it was reserved. -/
theorem placeLabel (h : Body source text rest found 0 m) (hlabel : LabelAt rest name behind)
    (hplaced : m.placeLabel name line = .ok after) :
    ∃ place label, m.labels[place]? = some label ∧ label.name = name
      ∧ label.offset = none
      ∧ after.labels = m.labels.set place { label with offset := some m.nextOffset }
      ∧ after.size = m.size := by
  rcases OpenMethod.placeLabel_cases hplaced with
    ⟨place, label, hfound, hname, hnone, rfl⟩ | ⟨hnew, hroom, rfl⟩
  · exact ⟨place, label, hfound, hname, hnone, rfl, rfl⟩
  · have hfull := h.length_of_not_mem (h.mem_of_label hlabel) hnew
    omega

theorem names_placeLabel (h : Body source text rest found 0 m) (hlabel : LabelAt rest name behind)
    (hplaced : m.placeLabel name line = .ok after) :
    after.labels.map (·.name) = m.labels.map (·.name) := by
  obtain ⟨_, _, hfound, -, -, hlabels, -⟩ := h.placeLabel hlabel hplaced
  rw [hlabels]
  exact map_set_of_eq hfound rfl

theorem getElem?_names (h : Body source text rest found depth m)
    {place : Nat} {label : Label} (hlabel : m.labels[place]? = some label) :
    (labelNames text)[place]? = some label.name := by
  have hname : (m.labels.map (·.name))[place]? = some label.name := by
    rw [List.getElem?_map, hlabel]
    rfl
  rw [h.names, List.getElem?_take] at hname
  split at hname
  · exact hname
  · cases hname

/-- If all names found so far are placed, then a label that can be placed
is the next one. -/
theorem placed_label (h : Body source text rest found 0 m) (hlabel : LabelAt rest name behind)
    (hplaced : m.placeLabel name line = .ok after) (hbefore : m.Placed found.length) :
    after.Placed (addName found name).length := by
  obtain ⟨place, label, hfound, rfl, hnone, hlabels, hsize⟩ := h.placeLabel hlabel hplaced
  have hle := hbefore.le_of_none hfound hnone
  have hname := h.getElem?_names hfound
  have hunique : ∀ {other : Nat}, (labelNames text)[other]? = some label.name → other = place := by
    intro other hother
    have hlt := (List.getElem?_eq_some_iff.1 hother).1
    exact (List.getElem?_inj hlt (nodup_labelNames text)).1 (hother.trans hname.symm)
  -- a name that was found before stands among those that are placed
  have hnew : label.name ∉ found := by
    intro hmem
    obtain ⟨earlier, hlt, hearlier⟩ := List.getElem_of_mem hmem
    have hsame := List.prefix_iff_getElem?.1 h.found_prefix earlier hlt
    rw [hearlier] at hsame
    have heq := hunique hsame
    omega
  have hadd : addName found label.name = found ++ [label.name] := if_neg hnew
  have hplace : found.length = place := by
    apply hunique
    have hprefix := h.prefix_of_label hlabel
    rw [hadd] at hprefix
    have hlast := List.prefix_iff_getElem?.1 hprefix found.length (by simp)
    simpa using hlast
  subst hplace
  rw [hadd, List.length_append]
  exact hbefore.place hfound hlabels hsize

-- ==== steps

/-- Where reading passes text in silence the search finds nothing, unless
a colon is in the way. -/
theorem silent (h : Body source text rest found depth m)
    (hpasses : Passes [] rest behind) (hsilent : Silent rest behind)
    (hlabels : after.labels = m.labels) (hsize : m.size ≤ after.size) :
    ∃ later, Body source text behind later depth after
      ∧ ((Clear depth rest → m.Placed found.length) →
        Clear depth behind → after.Placed later.length) := by
  obtain ⟨later, hnames, hsame⟩ := hsilent.names depth found
  refine ⟨later, h.move hpasses rfl hnames (by rw [hlabels]), ?_⟩
  intro hplaced hclear
  rw [hsame hclear]
  exact (hplaced (hclear.imp_right (mt hsilent.colon))).of_labels hlabels hsize

/-- A statement of the body takes the search along. If the names found
before it are placed, so are those found behind it. -/
theorem step (h : Body source text rest found depth m)
    (hstep : ParseState.BodyStep rest behind m after braces depth last)
    (hpasses : Passes braces rest behind) :
    ∃ later, Body source text behind later last after
      ∧ ((Clear depth rest → m.Placed found.length) →
        Clear last behind → after.Placed later.length) := by
  have hdepth := hstep.depthBehind?
  cases hstep with
  | close htext hsame =>
    refine ⟨found, h.move hpasses hdepth ?_ (by rw [hsame.labels]), ?_⟩
    · rw [htext]
      exact namesFrom_closing
    · intro hplaced _
      exact (hplaced (.inl (Nat.succ_ne_zero _))).of_labels hsame.labels
        (Nat.le_of_eq hsame.size.symm)
  | openLocals hbrace hsame =>
    have hbehind : ('\x7b' :: behind).head? ≠ some ':' := by simp
    refine ⟨found, h.move hpasses hdepth ?_ (by rw [hsame.labels]), ?_⟩
    · exact (hbrace.eq hbehind 0 found).trans namesFrom_opening
    · intro hplaced _
      exact (hplaced (.inr (mt hbrace.colon hbehind))).of_labels
        hsame.labels (Nat.le_of_eq hsame.size.symm)
  | inLocals hstep hsame =>
    -- a block of locals is one level deeper, where no label counts
    obtain ⟨later, hnames, hlater⟩ := hstep 1 found
    obtain rfl := hlater Nat.one_ne_zero
    refine ⟨later, h.move hpasses hdepth hnames (by rw [hsame.labels]), ?_⟩
    intro hplaced _
    exact (hplaced (.inl Nat.one_ne_zero)).of_labels hsame.labels (Nat.le_of_eq hsame.size.symm)
  | label hlabel hplace =>
    refine ⟨_, h.move hpasses hdepth (namesFrom_label hlabel)
      (h.names_placeLabel hlabel hplace), ?_⟩
    intro hplaced _
    exact h.placed_label hlabel hplace (hplaced (.inr hlabel.head_ne_colon))
  | instruction hsilent hlabels =>
    exact h.silent hpasses hsilent hlabels (by omega)

/-- A line that is passed over takes the search along as well. -/
theorem passLine {cur : Cursor} (h : Body source text cur.rest found depth m)
    (hdepth : Brace.depthBehind? depth cur.restOfLine.1 = some last) (hsame : m.Agrees after) :
    ∃ later, Body source text cur.restOfLine.2.rest later last after := by
  obtain ⟨later, hnames⟩ := exists_namesFrom_restOfLine cur hdepth
  exact ⟨later, h.move cur.passes_restOfLine hdepth hnames (by rw [hsame.labels])⟩

/-- Where a body is opened the search is at its start. -/
theorem of_opened {cur : Cursor} (hsource : Passes braces source text) {opening : List Brace}
    (h : ParseState.Opened text cur after opening depth) :
    Body source cur.rest cur.rest [] depth after ∧ after.Placed 0 := by
  obtain ⟨hbrace, ⟨_, rfl⟩, -, rfl⟩ := h
  obtain ⟨before, hbefore, -, hrests⟩ := hsource.trans hbrace
  refine ⟨⟨⟨before, hbefore, ?_⟩, ⟨[], .refl _, rfl⟩, rfl, ?_⟩, OpenMethod.placed_start ..⟩
  · rcases hrests with hcode | hline
    · exact hcode
    · exact absurd (hline _ rfl) (by decide)
  · rw [OpenMethod.names_start, names_labelsAhead]

end Body

-- ==== states

namespace ParseState

variable {set : InstructionSet} {state next : ParseState} {source : List Char} {errors : Nat}

/-- What holds along a parse of `source`. Inside a body the search for its
labels comes along, and as long as there are no errors all that was found
is placed. -/
structure Bodies (source : List Char) (errors : Nat) (state : ParseState) : Prop where
  single : state.beneath.Single
  passes : ∃ braces, Passes braces source state.cursor.rest
  errors_le : errors ≤ state.log.errorCount
  unskipped : state.log.errorCount = errors → Unskipped state.blocks
  body : ∀ {depth m}, Inside state.blocks depth m → ∃ text found,
    Body source text state.cursor.rest found depth m
      ∧ (state.log.errorCount = errors → Clear depth state.cursor.rest → m.Placed found.length)

/-- A refused statement keeps the labels of the body. -/
theorem Stays.inside {depth : Nat} {after : OpenMethod}
    (hstays : state.Stays next) (h : Inside next.blocks depth after) :
    ∃ m, Inside state.blocks depth m ∧ m.Agrees after := by
  rcases hstays with hmoved | ⟨_, _, m, hmethod, hmoved⟩
  · rw [hmoved.blocks] at h
    exact ⟨after, h, rfl, rfl⟩
  · rw [hmoved.blocks] at h
    cases h with
    | method hafter =>
      cases hafter
      have hdepth : ({ m with localsSeen := true } : OpenMethod).depth
          = 0 := OpenMethod.depth_of_none hmethod.localsLine
      rw [hdepth]
      exact ⟨m, hmethod.toInMethod.inside, rfl, rfl⟩

namespace Bodies

theorem trivia (h : Bodies source errors state) (line : Nat) : Bodies source errors { state with
      cursor := state.cursor.skipTrivia
      log := state.log.atLine line } where
  single := h.single
  passes := by
    obtain ⟨_, hpasses⟩ := h.passes
    exact ⟨_, hpasses.trans state.cursor.passes_skipTrivia⟩
  errors_le := h.errors_le
  unskipped := h.unskipped
  body := by
    intro depth m hinside
    obtain ⟨text, _, hbody, hplaced⟩ := h.body hinside
    obtain ⟨later, hlater, hnext⟩ := hbody.silent
      state.cursor.passes_skipTrivia state.cursor.silent_skipTrivia rfl (Nat.le_refl _)
    exact ⟨text, later, hlater, fun herrors => hnext (hplaced herrors)⟩

/-- A round that adds no error to none is a statement. -/
theorem turn (h : Bodies source errors state)
    (herrors : (advance set state).log.errorCount = errors) :
    state.log.errorCount = errors ∧ ∃ braces, Turn set state braces (advance set state) := by
  have hle := (adds_advance set state).errorCount_le
  have hsame : state.log.errorCount = errors := Nat.le_antisymm (herrors ▸ hle) h.errors_le
  exact ⟨hsame, turn_of_advance (isSkipping_of_unskipped (h.unskipped hsame))
    (herrors.trans hsame.symm)⟩

/-- Over a line that is passed the search comes along. -/
theorem body_of_skipLine (h : Bodies source errors state)
    {refused : ParseState} (hcursor : refused.cursor = state.cursor)
    (hsingle : refused.beneath.Single)
    (hstays : ∀ {depth after}, Inside refused.blocks depth after →
      ∃ m, Inside state.blocks depth m ∧ m.Agrees after) {last : Nat} {after : OpenMethod}
    (hinside : Inside refused.skipLine.blocks last after) :
    ∃ text found, Body source text refused.skipLine.cursor.rest found last after := by
  obtain ⟨_, _, hmiddle, hagrees, hdepth⟩ := inside_of_followBraces hsingle hinside
  obtain ⟨_, hbefore, hsame⟩ := hstays hmiddle
  obtain ⟨text, _, hbody, -⟩ := h.body hbefore
  rw [← hcursor] at hbody
  obtain ⟨later, hlater⟩ := hbody.passLine hdepth
    ⟨hagrees.labels.trans hsame.labels, hagrees.size.trans hsame.size⟩
  exact ⟨text, later, hlater⟩

/-- Over a statement the search comes along, and what it finds is
placed. -/
theorem body_of_turn (h : Bodies source errors state)
    (hskip : state.isSkipping = false) {braces : List Brace}
    (hturn : Turn set state braces next) {last : Nat} {after : OpenMethod}
    (hinside : Inside next.blocks last after) :
    ∃ text found, Body source text next.cursor.rest found last after
      ∧ (state.log.errorCount = errors → Clear last next.cursor.rest →
        after.Placed found.length) := by
  have hpasses := hturn.passes
  obtain ⟨read, htakes, heffect⟩ := hturn
  have hsingle := (lasting_single set).moved htakes.moved h.single
  have hread : read.isSkipping = false := by
    unfold isSkipping at hskip ⊢
    rw [htakes.moved.blocks]
    exact hskip
  rcases heffect.inside hsingle hread hinside with
    hopened | ⟨depth, m, hbefore, hstep⟩
  · obtain ⟨_, hfront⟩ := h.passes
    obtain ⟨hbody, hplaced⟩ := Body.of_opened hfront hopened
    exact ⟨_, [], hbody, fun _ _ => hplaced⟩
  · rw [htakes.moved.blocks] at hbefore
    obtain ⟨text, _, hbody, hplaced⟩ := h.body hbefore
    obtain ⟨later, hlater, hnext⟩ := hbody.step hstep hpasses
    exact ⟨text, later, hlater, fun herrors => hnext (hplaced herrors)⟩

theorem advance (h : Bodies source errors state) : Bodies source errors (advance set state) where
  single := (lasting_single set).advance h.single
  passes := by
    obtain ⟨_, hfront⟩ := h.passes
    obtain ⟨braces, hround⟩ := follows_advance set state
    exact ⟨_, hfront.trans hround.passes⟩
  errors_le := Nat.le_trans h.errors_le (adds_advance set state).errorCount_le
  unskipped := by
    intro herrors
    obtain ⟨hsame, braces, _, htakes, heffect⟩ := h.turn herrors
    have hunskipped := h.unskipped hsame
    rw [← htakes.moved.blocks] at hunskipped
    exact heffect.unskipped hunskipped
  body := by
    intro last after hinside
    have hbefore : (ParseState.advance set state).log.errorCount = errors →
        state.log.errorCount = errors := fun herrors => (h.turn herrors).1
    rcases advance_cases set state with ⟨hskips, hnext⟩
      | ⟨hskip, braces, hturn⟩ | ⟨middle, fault, hstays, hnext⟩
    · -- no block is skipped where there are no errors
      rw [hnext] at hinside
      obtain ⟨text, found, hbody⟩ := h.body_of_skipLine rfl h.single
        (fun hinside => ⟨_, hinside, rfl, rfl⟩) hinside
      rw [← hnext] at hbody
      refine ⟨text, found, hbody, fun herrors => ?_⟩
      have hnone := isSkipping_of_unskipped (h.unskipped (hbefore herrors))
      rw [hskips] at hnone
      cases hnone
    · obtain ⟨text, found, hbody, hplaced⟩ := h.body_of_turn hskip hturn hinside
      exact ⟨text, found, hbody, fun herrors => hplaced (hbefore herrors)⟩
    · rw [hnext] at hinside
      obtain ⟨text, found, hbody⟩ := h.body_of_skipLine
        (show (refused state middle fault).cursor = _ from rfl)
        ((lasting_single set).refused hstays fault h.single)
        (fun hinside => hstays.inside hinside) hinside
      rw [← hnext] at hbody
      refine ⟨text, found, hbody, fun herrors => ?_⟩
      have hsame := hbefore herrors
      rw [← hstays.level.log] at hsame
      have hlt := Log.errorCount_lt_report middle.log fault.isError_diagnostic
      rw [hnext, log_skipLine, ← hsame] at herrors
      exact absurd herrors (Nat.ne_of_gt hlt)

end Bodies

/-- However many rounds of a source are read, the search for the labels of
a body comes along. -/
theorem bodies_run (set : InstructionSet) (program : Program)
    (source : String) (log : Log) (rounds : Nat) :
    Bodies source.toList log.errorCount ((ofSource program source log).run set rounds) := by
  apply @run_induction set _ (Bodies source.toList log.errorCount)
  · exact fun state line h => h.trivia line
  · exact fun state h => h.advance
  · exact ⟨fun _ => nofun, ⟨[], .refl _⟩, Nat.le_refl _, fun _ _ => nofun, nofun⟩

end ParseState

end StackAsm
