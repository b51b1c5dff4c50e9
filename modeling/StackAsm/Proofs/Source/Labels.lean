/-
The search for labels, beside the readers of the same text. The search
knows no statements: it goes from character to character and notes every
word of the outermost block that one colon follows. The readers go from
token to token. Two judgments compare them.

`InStep text rest` says that the search comes from `text` to `rest` as a
reader does: it stands between words again, and inside a further block it
has noted nothing. `Silent text rest` says more: it has noted nothing in
any block, unless a colon stands right at `rest`. Every reader is silent
that does not ask for a colon or a brace (`Scan.Silent`); so what the
search notes are the words that are read as labels.
-/
import Mathlib.Data.List.Nodup
import StackAsm.Proofs.Source.Scanning

namespace StackAsm

open Cursor

variable {front : List Char}

-- ==== names

namespace LabelSearch

/-- The names noted so far, with the word in front of `text` if the search
notes it as a label. -/
def noted (depth : Nat) (found : List String) (c : Char) (rest : List Char) : List String :=
  let name := String.ofList (c :: rest.takeWhile isWordChar)
  if depth = 0 ∧ marksLabel (rest.dropWhile isWordChar) = true ∧ name ∉ found then
    found ++ [name]
  else found

/-- The names that a search finds by the end of the outermost block. -/
def namesFrom (region : Region) (inWord : Bool) (depth : Nat)
    (found : List String) : List Char → List String
  | [] => found
  | c :: rest =>
    match Brace.of? region c with
    | some .opening => namesFrom (region.after c) false (depth + 1) found rest
    | some .closing =>
      if depth = 0 then found
      else namesFrom (region.after c) false (depth - 1) found rest
    | none =>
      if region = .code ∧ inWord = true ∧ isWordChar c = true then
        namesFrom (region.after c) true depth found rest
      else if region = .code ∧ isWordStart c = true then
        namesFrom (region.after c) true depth (noted depth found c rest) rest
      else namesFrom (region.after c) false depth found rest

theorem names_note (search : LabelSearch) (c : Char) (rest : List Char) (line : Nat) :
    (search.note c rest line).found.map (·.1)
      = noted search.depth (search.found.map (·.1)) c rest := by
  have hany : ∀ name : String, (!search.found.any fun label => label.1 == name) = true
        ↔ name ∉ search.found.map (·.1) := by
    intro name
    simp only [Bool.not_eq_true', List.any_eq_false, beq_iff_eq, List.mem_map, not_exists, not_and]
  unfold note noted
  simp only [hany]
  split
  · rw [List.map_append]
    rfl
  · rfl

/-- The search finds those names, wherever the text stands. -/
theorem names_run (search : LabelSearch) (text : List Char) (here : Position) :
    (search.run text here).map (·.1)
      = namesFrom search.region search.inWord search.depth
        (search.found.map (·.1)) text := by
  induction text generalizing search here with
  | nil => rfl
  | cons c rest ih =>
    rw [run, namesFrom, step]
    cases Brace.of? search.region c with
    | some brace =>
      cases brace with
      | opening => exact ih _ _
      | closing =>
        by_cases hdepth : search.depth = 0
        · simp only [hdepth, if_true]
        · simp only [hdepth, if_false]
          exact ih _ _
    | none =>
      by_cases hword : search.region = .code ∧ search.inWord = true ∧ isWordChar c = true
      · simp only [hword, and_self, if_true]
        rw [ih]
      · simp only [hword, if_false]
        by_cases hstart : search.region = .code ∧ isWordStart c = true
        · simp only [hstart, and_self, if_true]
          rw [ih]
          have hdepth : (search.note c rest here.line).depth = search.depth := by
            unfold note
            simp only
            split <;> rfl
          simp only [names_note, hdepth]
        · simp only [hstart, if_false]
          exact ih _ _

theorem prefix_noted (depth : Nat) (found : List String) (c : Char)
    (rest : List Char) : found <+: noted depth found c rest := by
  unfold noted
  simp only
  split
  · exact List.prefix_append ..
  · exact List.prefix_rfl

theorem nodup_noted {found : List String} (depth : Nat) (c : Char)
    (rest : List Char) (h : found.Nodup) : (noted depth found c rest).Nodup := by
  unfold noted
  simp only
  split
  · rename_i hnew
    rw [← List.concat_eq_append]
    exact h.concat hnew.2.2
  · exact h

/-- Names are only ever noted: what holds of those noted so far and is
kept when one is noted holds of all that are found. -/
theorem namesFrom_keeps {P : List String → Prop} {found : List String}
    (hnoted : ∀ depth found c rest, P found → P (noted depth found c rest))
    (region : Region) (inWord : Bool) (depth : Nat) (text : List Char) (h : P found) :
    P (namesFrom region inWord depth found text) := by
  induction text generalizing region inWord depth found with
  | nil => exact h
  | cons c rest ih =>
    rw [namesFrom]
    split
    · exact ih _ _ _ h
    · split
      · exact h
      · exact ih _ _ _ h
    · split
      · exact ih _ _ _ h
      · split
        · exact ih _ _ _ (hnoted _ _ _ _ h)
        · exact ih _ _ _ h

/-- What was noted stays noted. -/
theorem prefix_namesFrom (region : Region) (inWord : Bool) (depth : Nat)
    (found : List String) (text : List Char) :
    found <+: namesFrom region inWord depth found text :=
  namesFrom_keeps (fun _ _ _ _ h => h.trans (prefix_noted ..)) _ _ _ _ List.prefix_rfl

/-- No name is noted twice. -/
theorem nodup_namesFrom (region : Region) (inWord : Bool) (depth : Nat)
    {found : List String} (text : List Char) (h : found.Nodup) :
    (namesFrom region inWord depth found text).Nodup :=
  namesFrom_keeps (fun _ _ _ _ h => nodup_noted _ _ _ h) _ _ _ _ h

end LabelSearch

/-- The labels declared directly in a block, `text` being what stands
behind its opening brace. -/
def labelNames (text : List Char) : List String := LabelSearch.namesFrom .code false 0 [] text

theorem Cursor.names_labelsAhead (cur : Cursor) :
    cur.labelsAhead.map (·.1) = labelNames cur.rest := LabelSearch.names_run ..

theorem nodup_labelNames (text : List Char) : (labelNames text).Nodup :=
  LabelSearch.nodup_namesFrom _ _ _ text List.nodup_nil

-- ==== steps

namespace LabelSearch

variable {region : Region} {inWord : Bool} {depth : Nat}
  {found : List String} {c : Char} {rest : List Char}

theorem namesFrom_opening :
    namesFrom .code inWord depth found ('\x7b' :: rest)
      = namesFrom .code false (depth + 1) found rest := rfl

theorem namesFrom_closing :
    namesFrom .code inWord (depth + 1) found ('\x7d' :: rest)
      = namesFrom .code false depth found rest := rfl

/-- The search ends with the block. -/
theorem namesFrom_end : namesFrom .code inWord 0 found ('\x7d' :: rest) = found := rfl

/-- A character that is no brace. -/
theorem namesFrom_plain (hbrace : Brace.of? region c = none) :
    namesFrom region inWord depth found (c :: rest)
      = if region = .code ∧ inWord = true ∧ isWordChar c = true then
          namesFrom (region.after c) true depth found rest
        else if region = .code ∧ isWordStart c = true then
          namesFrom (region.after c) true depth (noted depth found c rest) rest
        else namesFrom (region.after c) false depth found rest := by
  rw [namesFrom, hbrace]

/-- A character of a word whose start was seen. -/
theorem namesFrom_inside (hc : isWordChar c = true) :
    namesFrom .code true depth found (c :: rest) = namesFrom .code true depth found rest := by
  have hplain := (isInert_iff.1 (isInert_of_class sourceMarks_isWordChar hc)).2
  obtain ⟨hbrace, hafter⟩ := code_of_isPlain hplain
  rw [namesFrom_plain hbrace, hafter]
  exact if_pos ⟨rfl, rfl, hc⟩

/-- The first character of a word. -/
theorem namesFrom_start (hc : isWordStart c = true) :
    namesFrom .code false depth found (c :: rest)
      = namesFrom .code true depth (noted depth found c rest) rest := by
  have hplain := (isInert_iff.1 (isInert_of_class sourceMarks_isWordChar
    (isWordChar_of_isWordStart hc))).2
  obtain ⟨hbrace, hafter⟩ := code_of_isPlain hplain
  rw [namesFrom_plain hbrace, hafter, if_neg (by simp)]
  exact if_pos ⟨rfl, hc⟩

/-- A character that belongs to no word whose start was seen. -/
theorem namesFrom_outside (hplain : isPlain c = true) (hword : inWord = true → isWordChar c = false)
    (hstart : isWordStart c = false) :
    namesFrom .code inWord depth found (c :: rest) = namesFrom .code false depth found rest := by
  obtain ⟨hbrace, hafter⟩ := code_of_isPlain hplain
  rw [namesFrom_plain hbrace, hafter, if_neg, if_neg]
  · rw [hstart]
    simp
  · rintro ⟨-, hin, hc⟩
    rw [hword hin] at hc
    cases hc

theorem namesFrom_colon :
    namesFrom .code inWord depth found (':' :: rest)
      = namesFrom .code false depth found rest :=
  namesFrom_outside rfl (fun _ => rfl) rfl

/-- Outside code nothing is noted. -/
theorem namesFrom_covered (h : region ≠ .code) :
    namesFrom region inWord depth found (c :: rest)
      = namesFrom (region.after c) false depth found rest := by
  rw [namesFrom_plain (if_neg h), if_neg (fun hcode => h hcode.1), if_neg (fun hcode => h hcode.1)]

/-- The end of a line is the end of any region and word. -/
theorem namesFrom_newline :
    namesFrom region inWord depth found ('\n' :: rest)
      = namesFrom .code false depth found rest := by
  rw [namesFrom_plain (Brace.of?_newline ..), Region.after_newline, if_neg, if_neg]
  · exact fun hstart => absurd hstart.2 (by decide)
  · exact fun hchar => absurd hchar.2.2 (by decide)

/-- Where a line or a word ends the search goes on as in code. -/
theorem namesFrom_of_rests {text : List Char} (hrests : region.Rests text)
    (hword : inWord = true → ∀ d ∈ text.head?, isWordChar d = false) :
    namesFrom region inWord depth found text = namesFrom .code false depth found text := by
  cases text with
  | nil => rfl
  | cons c =>
    rcases hrests with rfl | hline
    · cases inWord with
      | false => rfl
      | true =>
        have hc := hword rfl c rfl
        rw [namesFrom, namesFrom]
        simp only [hc, Bool.false_eq_true, and_false, if_false]
    · have hc : c = '\n' := hline c rfl
      rw [hc, namesFrom_newline, namesFrom_newline]

end LabelSearch

-- ==== judgments

open LabelSearch

/-- The search comes from `text` to `rest` between words; inside a further
block it notes nothing on the way. -/
def InStep (text rest : List Char) : Prop :=
  ∀ depth found, ∃ later, namesFrom .code false depth found text
      = namesFrom .code false depth later rest
    ∧ (depth ≠ 0 → later = found)

/-- The search comes from `text` to `rest` between words. It notes nothing
on the way, unless the last word is read as a label because a colon stands
right at `rest`. -/
structure Silent (text rest : List Char) : Prop where
  colon : text.head? = some ':' → rest.head? = some ':'
  names : ∀ depth found, ∃ later, namesFrom .code false depth found text
      = namesFrom .code false depth later rest ∧ (depth ≠ 0 ∨ rest.head? ≠ some ':' → later = found)

variable {text middle rest : List Char}

theorem InStep.trans (hfirst : InStep text middle)
    (hsecond : InStep middle rest) : InStep text rest := by
  intro depth found
  obtain ⟨first, hnames, hsame⟩ := hfirst depth found
  obtain ⟨second, hnames', hsame'⟩ := hsecond depth first
  refine ⟨second, hnames.trans hnames', ?_⟩
  intro hdepth
  rw [hsame' hdepth, hsame hdepth]

theorem inStep_colon (rest : List Char) : InStep (':' :: rest) rest :=
  fun _ found => ⟨found, namesFrom_colon, fun _ => rfl⟩

namespace Silent

theorem inStep (h : Silent text rest) : InStep text rest := by
  intro depth found
  obtain ⟨later, hnames, hsame⟩ := h.names depth found
  exact ⟨later, hnames, fun hdepth => hsame (.inl hdepth)⟩

theorem refl (text : List Char) : Silent text text :=
  ⟨id, fun _ found => ⟨found, rfl, fun _ => rfl⟩⟩

theorem trans (hfirst : Silent text middle) (hsecond : Silent middle rest) : Silent text rest := by
  refine ⟨hsecond.colon ∘ hfirst.colon, ?_⟩
  intro depth found
  obtain ⟨first, hnames, hsame⟩ := hfirst.names depth found
  obtain ⟨second, hnames', hsame'⟩ := hsecond.names depth first
  refine ⟨second, hnames.trans hnames', ?_⟩
  intro hquiet
  rw [hsame' hquiet, hsame (hquiet.imp_right (mt hsecond.colon))]

/-- What the search notes on the way to a text that no colon opens. -/
theorem eq (h : Silent text rest) (hcolon : rest.head? ≠ some ':')
    (depth : Nat) (found : List String) :
    namesFrom .code false depth found text = namesFrom .code false depth found rest := by
  obtain ⟨_, hnames, hsame⟩ := h.names depth found
  rw [hnames, hsame (.inr hcolon)]

end Silent

-- ==== inert text

/-- A word in inert text is no label, unless a colon stands behind that
text. -/
theorem noted_of_inert {depth : Nat} {found : List String} {c : Char}
    (hinert : ∀ d ∈ front, isInert d = true)
    (hrest : (∀ d ∈ front, isWordChar d = true) → ∀ d ∈ rest.head?, isWordChar d = false)
    (hquiet : depth ≠ 0 ∨ rest.head? ≠ some ':') :
    noted depth found c (front ++ rest) = found := by
  refine if_neg ?_
  rintro ⟨hdepth, hmarks, -⟩
  have hcolon := hquiet.resolve_left (not_not_intro hdepth)
  -- the colon that makes a label stands in the front or opens the rest
  have hhead : ((front ++ rest).dropWhile isWordChar).head? = some ':' := by
    generalize (front ++ rest).dropWhile isWordChar = behind at hmarks ⊢
    unfold marksLabel at hmarks
    split at hmarks
    · cases hmarks
    · rfl
    · cases hmarks
  clear hmarks
  induction front with
  | nil =>
    rw [List.nil_append] at hhead
    cases rest with
    | nil => cases hhead
    | cons d =>
      have hd := hrest (by simp) d rfl
      rw [List.dropWhile_cons_of_neg (by simp [hd])] at hhead
      exact hcolon hhead
  | cons d front ih =>
    obtain ⟨hd, hfront⟩ := List.forall_mem_cons.1 hinert
    cases hword : isWordChar d with
    | true =>
      rw [List.cons_append, List.dropWhile_cons_of_pos hword] at hhead
      refine ih hfront (fun hall => hrest ?_) hhead
      exact List.forall_mem_cons.2 ⟨hword, hall⟩
    | false =>
      rw [List.cons_append, List.dropWhile_cons_of_neg (by simp [hword])] at hhead
      exact (isInert_iff.1 hd).1 (Option.some.inj hhead)

/-- Over inert text that does not end inside a word nothing is noted. -/
theorem exists_namesFrom_inert (hinert : ∀ d ∈ front, isInert d = true)
    (hlast : ∀ d ∈ front.getLast?, isWordChar d = true →
      ∀ d ∈ rest.head?, isWordChar d = false) {inWord : Bool}
    (hword : front = [] → inWord = true → ∀ d ∈ rest.head?, isWordChar d = false) (depth : Nat)
    (found : List String) :
    ∃ later, namesFrom .code inWord depth found (front ++ rest)
        = namesFrom .code false depth later rest
      ∧ (depth ≠ 0 ∨ rest.head? ≠ some ':' → later = found) := by
  induction front generalizing inWord found with
  | nil =>
    refine ⟨found, ?_, fun _ => rfl⟩
    exact namesFrom_of_rests (.inl rfl) (hword rfl)
  | cons c front ih =>
    obtain ⟨hc, hfront⟩ := List.forall_mem_cons.1 hinert
    have hplain := (isInert_iff.1 hc).2
    have hlast' : ∀ d ∈ front.getLast?, isWordChar d = true →
        ∀ d ∈ rest.head?, isWordChar d = false := by
      intro d hd
      refine hlast d ?_
      cases front with
      | nil => cases hd
      | cons => rwa [List.getLast?_cons_cons]
    have hone : isWordChar c = true → front = [] → true = true →
        ∀ d ∈ rest.head?, isWordChar d = false := by
      intro hc hnil _
      subst hnil
      exact hlast c rfl hc
    rw [List.cons_append]
    -- a word goes on, a word starts, or neither
    by_cases hin : inWord = true ∧ isWordChar c = true
    · obtain ⟨rfl, hchar⟩ := hin
      rw [namesFrom_inside hchar]
      exact ih hfront hlast' (hone hchar) found
    · cases hstart : isWordStart c with
      | true =>
        have hchar := isWordChar_of_isWordStart hstart
        have hout : inWord = false := by simpa [hchar] using hin
        subst hout
        rw [namesFrom_start hstart]
        obtain ⟨later, hnames, hsame⟩ := ih hfront hlast' (hone hchar)
          (noted depth found c (front ++ rest))
        refine ⟨later, hnames, fun hquiet => ?_⟩
        rw [hsame hquiet]
        refine noted_of_inert hfront (fun hall => ?_) hquiet
        cases hend : front.getLast? with
        | none => exact hone hchar (List.getLast?_eq_none_iff.1 hend) rfl
        | some d => exact hlast' d hend (hall d (List.mem_of_getLast? hend))
      | false =>
        rw [namesFrom_outside hplain (fun hw => by simpa [hw] using hin) hstart]
        exact ih hfront hlast' (fun _ (h : false = true) => nomatch h) found

theorem silent_of_inert (hinert : ∀ d ∈ front, isInert d = true)
    (hlast : ∀ d ∈ front.getLast?, isWordChar d = true → ∀ d ∈ rest.head?, isWordChar d = false) :
    Silent (front ++ rest) rest := by
  refine ⟨fun hcolon => ?_, exists_namesFrom_inert hinert hlast nofun⟩
  cases front with
  | nil => exact hcolon
  | cons c =>
    have hc := (isInert_iff.1 (hinert c (.head _))).1
    exact absurd (Option.some.inj hcolon) hc

/-- The same, for so many characters of a text. -/
theorem InertFront.silent {count : Nat} (h : InertFront count text)
    (hlast : ∀ d ∈ (text.take count).getLast?, isWordChar d = true →
      ∀ d ∈ (text.drop count).head?, isWordChar d = false) :
    Silent text (text.drop count) := by
  have hsilent := silent_of_inert h hlast
  rwa [List.take_append_drop] at hsilent

-- ==== quoted text

/-- Over text outside code nothing is noted. -/
theorem namesFrom_of_covers {region : Region}
    (hcovers : region.Covers front) (depth : Nat) (found : List String) :
    namesFrom region false depth found (front ++ rest)
      = namesFrom (region.behind front) false depth found rest := by
  induction front generalizing region with
  | nil => rfl
  | cons c front ih =>
    rw [List.cons_append, namesFrom_covered hcovers.1, ih hcovers.2]
    rfl

theorem Scan.Quoted.silent (h : Scan.Quoted text rest) : Silent text rest := by
  obtain ⟨quote, front, hquote, rfl, hcovers, hbehind⟩ := h
  refine ⟨?_, fun depth found => ⟨found, ?_, fun _ => rfl⟩⟩
  · intro hcolon
    rcases hquote with rfl | rfl <;> cases hcolon
  · calc namesFrom .code false depth found (quote :: (front ++ rest))
        = namesFrom (.quoted quote) false depth found (front ++ rest) := by
          rcases hquote with rfl | rfl <;> rfl
      _ = namesFrom ((Region.quoted quote).behind front) false depth found
            rest := namesFrom_of_covers hcovers depth found
      _ = namesFrom .code false depth found rest := by rw [hbehind]

end StackAsm
