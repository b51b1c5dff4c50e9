/-
The braces of a text. A text is read from left to right in regions, and
a brace counts only in code. `Brace.depth` is how deep a text ends when
a closing brace without a partner is passed over; `Brace.Balanced` says
that every brace has its partner.

`Passes braces text rest` is the judgment the readers are measured by:
one comes from `text` to its end `rest` over exactly those braces, and
stops in code or at the end of a line. It composes, so what a sequence
of readers passes is what its readers pass one after the other.
-/
import StackAsm.Source.Blocks

namespace StackAsm

variable {c : Char}

namespace Region

/-- The region behind `text` when it starts in this one. -/
def behind (region : Region) (text : List Char) : Region := text.foldl after region

theorem behind_cons (region : Region) (c : Char) (text : List Char) :
    region.behind (c :: text) = (region.after c).behind text := rfl

theorem behind_append (region : Region) (front back : List Char) :
    region.behind (front ++ back) = (region.behind front).behind back := List.foldl_append ..

/-- A line feed ends every region. -/
theorem after_newline (region : Region) : region.after '\n' = .code := by
  unfold after
  rw [if_pos rfl]

/-- Whether no character of a text that starts in this region stands in
code. -/
def Covers (region : Region) : List Char → Prop
  | [] => True
  | c :: rest => region ≠ .code ∧ (region.after c).Covers rest

end Region

namespace Brace

/-- A line feed is no brace. -/
theorem of?_newline (region : Region) : of? region '\n' = none := by
  unfold of?
  split <;> rfl

/-- The braces of a text that starts in `region`. -/
def listFrom (region : Region) : List Char → List Brace
  | [] => []
  | c :: rest => (of? region c).toList ++ listFrom (region.after c) rest

/-- The braces of a text. -/
def listOf (text : List Char) : List Brace := listFrom .code text

theorem listFrom_append (region : Region) (front back : List Char) :
    listFrom region (front ++ back)
      = listFrom region front ++ listFrom (region.behind front) back := by
  induction front generalizing region with
  | nil => rfl
  | cons c front ih =>
    rw [List.cons_append, listFrom, listFrom, ih, List.append_assoc, Region.behind_cons]

/-- No brace counts outside code. -/
theorem listFrom_of_covers {region : Region} {text : List Char}
    (h : region.Covers text) : listFrom region text = [] := by
  induction text generalizing region with
  | nil => rfl
  | cons c text ih =>
    rw [listFrom, of?, if_neg h.1, ih h.2]
    rfl

/-- How deep one is behind a brace; a closing one without a partner
changes nothing. -/
def depthAfter (depth : Nat) : Brace → Nat
  | .opening => depth + 1
  | .closing => depth - 1

/-- How deep a text ends. -/
def depth (text : List Char) : Nat := (listOf text).foldl depthAfter 0

-- ==== balance

/-- Every brace has its partner. -/
inductive Balanced : List Brace → Prop where
  | nil : Balanced []
  | block {inner rest : List Brace} : Balanced inner → Balanced rest →
        Balanced (.opening :: (inner ++ .closing :: rest))

/-- How deep one is behind a brace; `none` if it has no partner. -/
def depthAfter? (depth : Nat) : Brace → Option Nat
  | .opening => some (depth + 1)
  | .closing => if depth = 0 then none else some (depth - 1)

/-- How deep one is behind braces that all have a partner before them. -/
def depthBehind? (depth : Nat) (braces : List Brace) : Option Nat := braces.foldlM depthAfter? depth

/-- Braces that close so many blocks opened before them, and are
otherwise balanced. -/
inductive Closes : Nat → List Brace → Prop where
  | nothing {braces : List Brace} : Balanced braces → Closes 0 braces
  | block {depth : Nat} {inner rest : List Brace} : Balanced inner → Closes depth rest →
        Closes (depth + 1) (inner ++ .closing :: rest)

theorem Closes.opening {depth : Nat} {inner rest : List Brace}
    (hinner : Balanced inner) (hrest : Closes depth rest) :
    Closes depth (.opening :: (inner ++ .closing :: rest)) := by
  cases hrest with
  | nothing hbalanced => exact .nothing (.block hinner hbalanced)
  | block hnext hlast =>
    have hblock := Closes.block (.block hinner hnext) hlast
    rwa [List.cons_append, List.append_assoc, List.cons_append] at hblock

/-- Braces that end outside every block close what was open. -/
theorem closes_of_depthBehind? {depth : Nat} {braces : List Brace}
    (h : depthBehind? depth braces = some 0) : Closes depth braces := by
  unfold depthBehind? at h
  induction braces generalizing depth with
  | nil =>
    cases h
    exact .nothing .nil
  | cons brace braces ih =>
    cases brace with
    | opening =>
      cases ih h with
      | block hinner hrest => exact .opening hinner hrest
    | closing =>
      cases depth with
      | zero => cases h
      | succ => exact .block .nil (ih h)

/-- Braces that start and end outside every block are balanced. -/
theorem balanced_of_depthBehind? {braces : List Brace}
    (h : depthBehind? 0 braces = some 0) : Balanced braces := by
  cases closes_of_depthBehind? h with
  | nothing hbalanced => exact hbalanced

theorem depthBehind?_append {depth : Nat} (front back : List Brace) :
    depthBehind? depth (front ++ back)
      = (depthBehind? depth front).bind (depthBehind? · back) :=
  List.foldlM_append ..

end Brace

-- ==== passing

/-- Whether reading can rest in this region with `rest` ahead: in code,
or in any region if its line ends here. -/
def Region.Rests (region : Region) (rest : List Char) : Prop :=
  region = .code ∨ ∀ c ∈ rest.head?, c = '\n'

/-- One comes from `text` to `rest` over those braces. -/
def Passes (braces : List Brace) (text rest : List Char) : Prop :=
  ∃ front, text = front ++ rest ∧ Brace.listFrom .code front = braces
    ∧ (Region.code.behind front).Rests rest

/-- Where reading rests, the text ahead reads as code. -/
theorem Region.Rests.as_code {region : Region} {front rest : List Char}
    (hregion : region.Rests (front ++ rest)) (hbehind : (Region.code.behind front).Rests rest) :
    Brace.listFrom region front = Brace.listFrom .code front
      ∧ (region.behind front).Rests rest := by
  rcases hregion with rfl | hline
  · exact ⟨rfl, hbehind⟩
  · cases front with
    | nil => exact ⟨rfl, .inr hline⟩
    | cons c =>
      have hc : c = '\n' := hline c rfl
      subst hc
      rw [Brace.listFrom, Brace.of?_newline, Region.behind_cons, Region.after_newline]
      exact ⟨rfl, hbehind⟩

namespace Passes

variable {braces more : List Brace} {text middle rest : List Char}

theorem refl (text : List Char) : Passes [] text text := ⟨[], rfl, rfl, .inl rfl⟩

theorem trans (hfirst : Passes braces text middle) (hsecond : Passes more middle rest) :
    Passes (braces ++ more) text rest := by
  obtain ⟨front, rfl, rfl, hrests⟩ := hfirst
  obtain ⟨back, rfl, rfl, hbehind⟩ := hsecond
  obtain ⟨hlist, hrests⟩ := hrests.as_code hbehind
  refine ⟨front ++ back, (List.append_assoc ..).symm, ?_, ?_⟩
  · rw [Brace.listFrom_append, hlist]
  · rw [Region.behind_append]
    exact hrests

theorem length_le (h : Passes braces text rest) : rest.length ≤ text.length := by
  obtain ⟨_, rfl, -, -⟩ := h
  rw [List.length_append]
  exact Nat.le_add_left ..

/-- What is passed from the start of a text decides how deep one is. -/
theorem exists_consumed (h : Passes braces text rest) :
    ∃ consumed, text = consumed ++ rest
      ∧ Brace.depth consumed = braces.foldl Brace.depthAfter 0 := by
  obtain ⟨front, htext, rfl, -⟩ := h
  exact ⟨front, htext, rfl⟩

/-- All of a text was passed. -/
theorem listOf_eq (h : Passes braces text []) : Brace.listOf text = braces := by
  obtain ⟨_, rfl, hlist, -⟩ := h
  rw [List.append_nil]
  exact hlist

end Passes

-- ==== plain characters

/-- Characters that open or close a region or a block. -/
def lexicalMarks : List Char := ['\n', ';', '"', '\'', '\x7b', '\x7d']

/-- Whether a character says nothing about regions and blocks. -/
def isPlain (c : Char) : Bool := !lexicalMarks.contains c

/-- Characters that open or close a region or a block, or mark a
label. -/
def sourceMarks : List Char := ':' :: lexicalMarks

/-- Whether a character says nothing about regions, blocks and labels. -/
def isInert (c : Char) : Bool := !sourceMarks.contains c

theorem isInert_iff : isInert c = true ↔ c ≠ ':' ∧ isPlain c = true := by
  simp only [isInert, isPlain, sourceMarks, List.contains_eq_mem,
    List.mem_cons, Bool.not_eq_true', decide_eq_false_iff_not, not_or]

/-- A class of characters without the marks is inert. -/
theorem isInert_of_class {p : Char → Bool}
    (hclass : sourceMarks.all fun mark => !p mark) (hc : p c = true) :
    isInert c = true := by
  rw [List.all_eq_true] at hclass
  unfold isInert
  rw [Bool.not_eq_true', List.contains_eq_mem, decide_eq_false_iff_not]
  intro hmem
  have hmark := hclass c hmem
  rw [hc] at hmark
  cases hmark

/-- A plain character passes no brace and stays in code. -/
theorem code_of_isPlain (h : isPlain c = true) :
    Brace.of? .code c = none ∧ Region.code.after c = .code := by
  simp only [isPlain, lexicalMarks, List.contains_eq_mem, List.mem_cons,
    List.not_mem_nil, or_false, not_or, Bool.not_eq_true', decide_eq_false_iff_not] at h
  obtain ⟨hline, hcomment, hdouble, hsingle, hopen, hclose⟩ := h
  refine ⟨?_, ?_⟩
  · simp only [Brace.of?, if_true, if_neg hopen, if_neg hclose]
  · simp only [Region.after, if_neg hline, if_neg hcomment, hdouble, hsingle, or_self, if_false]

theorem code_of_plain_text {text : List Char} (h : ∀ c ∈ text, isPlain c = true) :
    Brace.listFrom .code text = [] ∧ Region.code.behind text = .code := by
  induction text with
  | nil => exact ⟨rfl, rfl⟩
  | cons c text ih =>
    obtain ⟨hbrace, hafter⟩ := code_of_isPlain (h c (.head _))
    obtain ⟨hlist, hbehind⟩ := ih fun d hd => h d (.tail _ hd)
    rw [Brace.listFrom, Region.behind_cons, hbrace, hafter]
    exact ⟨hlist, hbehind⟩

/-- Whether the first `count` characters of a text are inert. -/
def InertFront (count : Nat) (text : List Char) : Prop := ∀ c ∈ text.take count, isInert c = true

namespace InertFront

variable {text : List Char}

theorem zero (text : List Char) : InertFront 0 text := by
  intro c hc
  cases hc

/-- Inert text behind inert text. -/
theorem add {first second : Nat} (hfirst : InertFront first text)
    (hsecond : InertFront second (text.drop first)) :
    InertFront (first + second) text := by
  intro c hc
  rw [List.take_add, List.mem_append] at hc
  rcases hc with hc | hc
  · exact hfirst c hc
  · exact hsecond c hc

theorem succ {count : Nat} (hc : isInert c = true) (htext : InertFront count text) :
    InertFront (count + 1) (c :: text) := by
  intro d hd
  rw [List.take_succ_cons, List.mem_cons] at hd
  rcases hd with rfl | hd
  · exact hc
  · exact htext d hd

/-- The characters of an inert class that stand at the front. -/
theorem takeWhile {p : Char → Bool}
    (hclass : sourceMarks.all fun mark => !p mark) (text : List Char) :
    InertFront (text.takeWhile p).length text := by
  induction text with
  | nil => exact zero []
  | cons c text ih =>
    rw [List.takeWhile_cons]
    cases hc : p c with
    | true => exact succ (isInert_of_class hclass hc) ih
    | false => exact zero _

/-- Inert characters are passed without a brace. -/
theorem passes {count : Nat} (h : InertFront count text) : Passes [] text (text.drop count) := by
  obtain ⟨hlist, hbehind⟩ := code_of_plain_text fun c hc => (isInert_iff.1 (h c hc)).2
  exact ⟨text.take count, (List.take_append_drop ..).symm, hlist, .inl hbehind⟩

end InertFront

/-- A brace of its own. -/
theorem passes_brace {brace : Brace} (hbrace : Brace.of? .code c = some brace)
    (hafter : Region.code.after c = .code) (rest : List Char) :
    Passes [brace] (c :: rest) rest := by
  refine ⟨[c], rfl, ?_, .inl hafter⟩
  rw [Brace.listFrom, hbrace]
  rfl

theorem passes_opening (rest : List Char) :
    Passes [.opening] ('\x7b' :: rest) rest := passes_brace rfl rfl rest

theorem passes_closing (rest : List Char) :
    Passes [.closing] ('\x7d' :: rest) rest := passes_brace rfl rfl rest

-- ==== trivia

namespace Cursor

/-- The region in which blanks and comments are passed. -/
def triviaRegion (inComment : Bool) : Region := if inComment then .comment else .code

theorem isInert_of_isBlank (h : Text.isBlank c = true) (hline : c ≠ '\n') : isInert c = true := by
  have hclass : sourceMarks.all fun mark =>
      !(mark != '\n' && Text.isBlank mark) := by
    decide
  apply isInert_of_class hclass
  rw [h, Bool.and_true, bne_iff_ne]
  exact hline

/-- A blank neither starts quoted text nor is a brace. -/
theorem code_of_isBlank (h : Text.isBlank c = true) (hline : c ≠ '\n') :
    Brace.of? .code c = none ∧ Region.code.after c = .code :=
  code_of_isPlain (isInert_iff.1 (isInert_of_isBlank h hline)).2

/-- Blanks and comments hold no brace. -/
theorem passes_triviaFrom (inline inComment : Bool) (text : List Char) (here : Position) :
    ∃ front, text = front ++ (triviaFrom inline inComment text here).rest
      ∧ Brace.listFrom (triviaRegion inComment) front = []
      ∧ ((triviaRegion inComment).behind front).Rests
        (triviaFrom inline inComment text here).rest := by
  -- a character is passed, in a region from which the rest follows
  have hpass : ∀ {region later : Region} {c : Char} {text rest : List Char},
      Brace.of? region c = none ∧ region.after c = later →
      (∃ front, text = front ++ rest ∧ Brace.listFrom later front = []
        ∧ (later.behind front).Rests rest) →
      ∃ front, c :: text = front ++ rest ∧ Brace.listFrom region front = []
        ∧ (region.behind front).Rests rest := by
    rintro region _ c _ rest ⟨hbrace, rfl⟩ ⟨front, rfl, hlist, hrests⟩
    refine ⟨c :: front, rfl, ?_, hrests⟩
    rw [Brace.listFrom, hbrace, hlist]
    rfl
  fun_induction triviaFrom inline inComment text here with
  | case1 => exact ⟨[], rfl, rfl, .inr fun _ hd => by cases hd⟩
  | case2 => exact ⟨[], rfl, rfl, .inr fun _ hd => by cases hd; rfl⟩
  | case3 _ _ _ _ ih => exact hpass ⟨Brace.of?_newline _, Region.after_newline _⟩ ih
  | case4 inComment c _ _ hline hpassed ih =>
    cases inComment with
    | true => exact hpass ⟨rfl, if_neg hline⟩ ih
    | false => exact hpass (code_of_isBlank hpassed hline) ih
  | case5 inComment _ _ hline hcode ih =>
    cases inComment with
    | true => cases hcode rfl
    | false => exact hpass ⟨rfl, rfl⟩ ih
  | case6 inComment _ _ _ _ hcode =>
    cases inComment with
    | true => cases hcode rfl
    | false => exact ⟨[], rfl, rfl, .inl rfl⟩

theorem passes_skipTrivia (cur : Cursor) :
    Passes [] cur.rest cur.skipTrivia.rest := passes_triviaFrom false false cur.rest cur.position

theorem passes_skipInline (cur : Cursor) :
    Passes [] cur.rest cur.skipInline.rest := passes_triviaFrom true false cur.rest cur.position

-- ==== lines

/-- A line that is passed over gives back its braces. -/
theorem passes_restOfLineFrom (region : Region) (text : List Char) (here : Position) :
    ∃ front, text = front ++ (restOfLineFrom region text here).2.rest
      ∧ Brace.listFrom region front = (restOfLineFrom region text here).1
      ∧ (region.behind front).Rests
        (restOfLineFrom region text here).2.rest := by
  induction text generalizing region here with
  | nil => exact ⟨[], rfl, rfl, .inr fun c hc => by cases hc⟩
  | cons c text ih =>
    unfold restOfLineFrom
    by_cases hline : c = '\n'
    · subst hline
      refine ⟨['\n'], rfl, ?_, .inl (Region.after_newline region)⟩
      rw [Brace.listFrom, Brace.of?_newline]
      rfl
    · rw [if_neg hline]
      obtain ⟨front, htext, hlist, hends⟩ := ih (region.after c) (here.after c)
      refine ⟨c :: front, congrArg (c :: ·) htext, ?_, hends⟩
      rw [Brace.listFrom, hlist]

theorem passes_restOfLine (cur : Cursor) :
    Passes cur.restOfLine.1 cur.rest cur.restOfLine.2.rest :=
  passes_restOfLineFrom .code cur.rest cur.position

/-- Passing a line leaves less to read. -/
theorem length_restOfLine_lt {cur : Cursor} (h : cur.rest ≠ []) :
    cur.restOfLine.2.rest.length < cur.rest.length := by
  obtain ⟨text, here⟩ := cur
  cases text with
  | nil => exact absurd rfl h
  | cons c text =>
    show (restOfLineFrom .code (c :: text) here).2.rest.length < _
    unfold restOfLineFrom
    split
    · exact Nat.lt_succ_self _
    · obtain ⟨_, htext, -, -⟩ := passes_restOfLineFrom (Region.code.after c) text (here.after c)
      have hlength := congrArg List.length htext
      rw [List.length_append] at hlength
      show (restOfLineFrom (Region.code.after c) text
        (here.after c)).2.rest.length < text.length + 1
      omega

end Cursor

end StackAsm
