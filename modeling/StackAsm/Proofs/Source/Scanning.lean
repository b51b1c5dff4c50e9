/-
What the readers of single tokens pass. A word, a name, a number, a text
in quotes: each is inert text that does not end inside a word, or stands
in quotes of its own. Whatever holds over blanks, comments and such text
holds over what a reader put together from them passes (`Scan.Skips`).
None of it is a brace that would count, so such a reader leaves the depth
of the text alone (`Scan.Braceless`), and the only readers that do not
are those that ask for a brace.
-/
import StackAsm.Proofs.Source.Braces
import StackAsm.Proofs.Steps
import StackAsm.Source.Literal

namespace StackAsm

namespace Cursor

variable {c : Char}

/-- Dropping characters drops them from the rest. -/
theorem rest_drop (count : Nat) (cur : Cursor) : (cur.drop count).rest = cur.rest.drop count := by
  induction count generalizing cur with
  | zero => rfl
  | succ count ih =>
    obtain ⟨text, _⟩ := cur
    rw [drop, ih]
    cases text with
    | nil => exact List.drop_nil
    | cons => rfl

theorem peek?_eq_some_iff {cur : Cursor} :
    cur.peek? = some c ↔ ∃ rest, cur.rest = c :: rest := List.head?_eq_some_iff

theorem rest_advance {cur : Cursor} {rest : List Char}
    (h : cur.rest = c :: rest) : cur.advance.rest = rest := by
  obtain ⟨_, _⟩ := cur
  subst h
  rfl

theorem isWordChar_of_isWordStart (h : isWordStart c = true) : isWordChar c = true := by
  simp only [isWordStart, isWordChar, Char.isAlphanum, Bool.or_eq_true] at h ⊢
  rcases h with h | h
  · exact .inl (.inl h)
  · exact .inr h

theorem sourceMarks_isWordChar : sourceMarks.all fun mark => !isWordChar mark := by
  decide

end Cursor

/-- Whether a text is made of word characters, and of at least one. -/
def Text.IsWord (name : String) : Prop :=
  name.toList ≠ [] ∧ ∀ c ∈ name.toList, Cursor.isWordChar c = true

theorem Cursor.word_append_drop {text word : List Char} (h : leadingWord? text = some word) :
    word ++ text.drop word.length = text := by
  cases text with
  | nil => cases h
  | cons =>
    rw [leadingWord?] at h
    split at h
    · cases h
      refine List.prefix_iff_eq_append.1 ?_
      exact List.cons_prefix_cons.2 ⟨rfl, List.takeWhile_prefix _⟩
    · cases h

/-- Whether a text that starts in this region is out of it behind its last
character and not before, all on one line. -/
def Region.Leaves (region : Region) : List Char → Prop
  | [] => region = .code
  | c :: rest => region ≠ .code ∧ c ≠ '\n' ∧ (region.after c).Leaves rest

theorem Region.Leaves.covers {region : Region} {text : List Char} (h : region.Leaves text) :
    region.Covers text ∧ region.behind text = .code := by
  induction text generalizing region with
  | nil => exact ⟨trivial, h⟩
  | cons c text ih => exact ⟨⟨h.1, (ih h.2.2).1⟩, (ih h.2.2).2⟩

namespace Scan

open Cursor

variable {c value : Char} {cur next : Cursor} {text : List Char}

-- ==== single characters

/-- A character is passed exactly if it comes next. -/
theorem run_eat (c : Char) (cur : Cursor) : (eat c).run cur = if cur.skipTrivia.peek? = some c then
          .ok true cur.skipTrivia.advance
        else .ok false cur.skipTrivia := by
  show EStateM.run (do
    if (← get).peek? = some c then
      modify Cursor.advance
      return true
    else return false : Scan Bool) cur.skipTrivia = _
  split
  · rename_i hnext
    show EStateM.run (if cur.skipTrivia.peek? = some c then _ else _) cur.skipTrivia = _
    rw [if_pos hnext]
    rfl
  · rename_i hnext
    show EStateM.run (if cur.skipTrivia.peek? = some c then _ else _) cur.skipTrivia = _
    rw [if_neg hnext]
    rfl

/-- A character that was passed came next. -/
theorem rest_of_eat (h : (eat c).run cur = .ok true next) :
    cur.skipTrivia.rest = c :: next.rest := by
  rw [run_eat] at h
  split at h
  · rename_i hnext
    obtain ⟨_, hrest⟩ := Cursor.peek?_eq_some_iff.1 hnext
    cases h
    rw [Cursor.rest_advance hrest, hrest]
  · cases h

/-- A character that is demanded is passed. -/
theorem eat_of_expect {a : Unit} (h : (expect c).run cur = .ok a next) :
    (eat c).run cur = .ok true next := by
  obtain ⟨found, _, hfound, h⟩ := run_bind_ok_iff.1 h
  cases found with
  | true =>
    obtain ⟨-, rfl⟩ := run_pure_ok_iff.1 h
    exact hfound
  | false => cases h

/-- What stands before a character is passed without a brace. -/
theorem passes_of_eat {braces : List Brace} (h : (eat c).run cur = .ok true next)
    (hc : Passes braces (c :: next.rest) next.rest) :
    Passes braces cur.rest next.rest := by
  rw [← rest_of_eat h] at hc
  exact cur.passes_skipTrivia.trans hc

theorem length_of_eat (h : (eat c).run cur = .ok true next) :
    next.rest.length < cur.rest.length := by
  have hle := cur.passes_skipTrivia.length_le
  rw [rest_of_eat h, List.length_cons] at hle
  exact hle

theorem passes_plain (hplain : isPlain c = true) (rest : List Char) :
    Passes [] (c :: rest) rest := by
  obtain ⟨hbrace, hafter⟩ := code_of_isPlain hplain
  refine ⟨[c], rfl, ?_, .inl hafter⟩
  rw [Brace.listFrom, hbrace]
  rfl

-- ==== words

theorem inertFront_leadingWord {word : List Char} (h : Cursor.leadingWord? text = some word) :
    InertFront word.length text ∧ word ≠ [] ∧ ∀ c ∈ word, Cursor.isWordChar c = true := by
  cases text with
  | nil => cases h
  | cons c text =>
    rw [Cursor.leadingWord?] at h
    split at h
    · rename_i hstart
      cases h
      have hc := Cursor.isWordChar_of_isWordStart hstart
      refine ⟨?_, List.cons_ne_nil _ _, ?_⟩
      · exact (InertFront.takeWhile Cursor.sourceMarks_isWordChar
          text).succ (isInert_of_class Cursor.sourceMarks_isWordChar hc)
      · intro d hd
        rcases List.mem_cons.1 hd with rfl | hd
        · exact hc
        · exact List.all_eq_true.1 List.all_takeWhile d hd
    · cases h

/-- Behind a word that was read no word goes on. -/
theorem head_drop_leadingWord {word : List Char} (hword : leadingWord? text = some word) :
    ∀ d ∈ (text.drop word.length).head?, isWordChar d = false := by
  cases text with
  | nil => cases hword
  | cons c text =>
    have h := hword
    rw [leadingWord?] at h
    split at h
    · cases h
      have hdrop : (c :: text).drop (c :: text.takeWhile isWordChar).length
            = text.dropWhile isWordChar := by
        have hsplit := @List.takeWhile_append_dropWhile _ isWordChar text
        exact List.append_cancel_left
          ((word_append_drop hword).trans (congrArg (c :: ·) hsplit.symm))
      intro d hd
      rw [hdrop] at hd
      have hnot := List.head?_dropWhile_not isWordChar text
      rw [Option.mem_def.1 hd] at hnot
      exact hnot
    · cases h

theorem inertFront_dottedTail (text : List Char) :
    InertFront (Cursor.dottedTail text).length text := by
  induction text with
  | nil => exact InertFront.zero _
  | cons c text ih =>
    unfold Cursor.dottedTail
    split
    · rename_i hc
      exact ih.succ (isInert_of_class Cursor.sourceMarks_isWordChar hc)
    · split
      · rename_i hdot
        subst hdot
        cases text with
        | nil => exact InertFront.zero _
        | cons =>
          simp only
          split
          · exact ih.succ rfl
          · exact InertFront.zero _
      · exact InertFront.zero _

theorem head_drop_dottedTail (text : List Char) :
    ∀ d ∈ (text.drop (dottedTail text).length).head?, isWordChar d = false := by
  induction text with
  | nil => exact nofun
  | cons c text ih =>
    have hstop : isWordChar c = false → ∀ d ∈ (c :: text).head?, isWordChar d = false := by
      intro hc d hd
      obtain rfl : c = d := Option.some.inj hd
      exact hc
    unfold dottedTail
    split
    · exact ih
    · rename_i hc
      have hc := Bool.eq_false_iff.2 hc
      split
      · split
        · exact hstop hc
        · split
          · exact ih
          · exact hstop hc
      · exact hstop hc

theorem inertFront_bracketPairs (text : List Char) :
    InertFront (2 * Cursor.bracketPairs text) text := by
  fun_induction Cursor.bracketPairs text with
  | case1 text ih => exact (ih.succ rfl).succ rfl
  | case2 => exact InertFront.zero _

/-- Brackets end with a bracket. -/
theorem getLast?_bracketPairs (text : List Char) :
    ∀ d ∈ (text.take (2 * bracketPairs text)).getLast?, d = ']' := by
  fun_induction bracketPairs text with
  | case1 text ih =>
    intro d hd
    have htake : ('[' :: ']' :: text).take (2 * (bracketPairs text + 1))
        = '[' :: ']' :: text.take (2 * bracketPairs text) := rfl
    rw [htake, List.getLast?_cons_cons, List.getLast?_cons] at hd
    cases hlast : (text.take (2 * bracketPairs text)).getLast? with
    | none =>
      rw [hlast] at hd
      exact (Option.some.inj hd).symm
    | some e =>
      rw [hlast] at hd
      obtain rfl : e = d := Option.some.inj hd
      exact ih e hlast
  | case2 =>
    intro d hd
    cases hd

-- ==== quoted text

theorem leaves_escaped {quote : Char} (h : escapeValue? c = some value)
    (htext : (Region.quoted quote).Leaves text) :
    (Region.quoted quote).Leaves ('\\' :: c :: text) := by
  have hline : c ≠ '\n' := by
    rintro rfl
    cases h
  refine ⟨nofun, by decide, nofun, hline, ?_⟩
  show (Region.after (.escaped quote) c).Leaves text
  rwa [Region.after, if_neg hline]

theorem leaves_plain {quote : Char} (hline : c ≠ '\n') (hescape : c ≠ '\\') (hquote : c ≠ quote)
    (htext : (Region.quoted quote).Leaves text) : (Region.quoted quote).Leaves (c :: text) := by
  refine ⟨nofun, hline, ?_⟩
  rwa [Region.after, if_neg hline, if_neg hescape, if_neg hquote]

/-- A string ends behind its closing quote, in code. -/
theorem stringBody_ok {opening here : Position} {value : List Char}
    (h : stringBody opening text here = .ok value next) :
    ∃ front, text = front ++ next.rest ∧ next = (Cursor.mk text here).drop front.length
      ∧ (Region.quoted '"').Leaves front := by
  fun_induction stringBody opening text here generalizing value next with
  | case1 | case2 | case4 | case5 | case6 | case9 => cases h
  | case3 c rest here behind escaped hescape body cur hbody =>
    rename_i ih
    cases h
    obtain ⟨front, rfl, hnext, hleaves⟩ := ih hbody
    exact ⟨'\\' :: c :: front, rfl, hnext, leaves_escaped hescape hleaves⟩
  | case7 =>
    cases h
    exact ⟨['"'], rfl, rfl, nofun, by decide, rfl⟩
  | case8 c rest here hlast hmore behind hline hquote body cur hbody =>
    rename_i ih
    cases h
    obtain ⟨front, rfl, hnext, hleaves⟩ := ih hbody
    have hescape : c ≠ '\\' := by
      intro hescape
      cases hrest : front ++ cur.rest with
      | nil => exact hlast hescape hrest
      | cons d rest => exact hmore d rest hescape hrest
    exact ⟨c :: front, rfl, hnext, leaves_plain hline hescape hquote hleaves⟩

/-- A text in quotes stands in front of `rest`. -/
def Quoted (text rest : List Char) : Prop :=
  ∃ quote front, (quote = '"' ∨ quote = '\'')
    ∧ text = quote :: (front ++ rest)
    ∧ (Region.quoted quote).Covers front
    ∧ (Region.quoted quote).behind front = .code

theorem Quoted.passes {rest : List Char} (h : Quoted text rest) : Passes [] text rest := by
  obtain ⟨quote, front, hquote, rfl, hcovers, hbehind⟩ := h
  have hlist := Brace.listFrom_of_covers hcovers
  refine ⟨quote :: front, rfl, ?_, .inl ?_⟩
  · rcases hquote with rfl | rfl <;> exact hlist
  · rcases hquote with rfl | rfl <;> exact hbehind

/-- A text in quotes stands between two cursors. -/
def QuotedTo (cur next : Cursor) : Prop :=
  ∃ quote front, (quote = '"' ∨ quote = '\'') ∧ cur.rest = quote :: (front ++ next.rest)
    ∧ next = cur.drop (front.length + 1) ∧ (Region.quoted quote).Leaves front

theorem QuotedTo.quoted (h : QuotedTo cur next) : Quoted cur.rest next.rest := by
  obtain ⟨quote, front, hquote, hrest, -, hleaves⟩ := h
  exact ⟨quote, front, hquote, hrest, hleaves.covers⟩

theorem string_ok {value : String} (h : string.run cur = .ok value next) :
    QuotedTo cur.skipTrivia next := by
  obtain ⟨_, _, hskip, h⟩ := run_bind_ok_iff.1 h
  cases hskip
  rw [run_get_bind] at h
  split at h
  · rename_i hquote
    obtain ⟨rest, hrest⟩ := Cursor.peek?_eq_some_iff.1 hquote
    obtain ⟨text, htext, -⟩ := run_bind_pure_ok_iff.1 h
    obtain ⟨front, hfront, hnext, hleaves⟩ := stringBody_ok htext
    rw [Cursor.rest_advance hrest] at hfront
    exact ⟨'"', front, .inl rfl, by rw [hrest, hfront], hnext, hleaves⟩
  · cases h

/-- The character behind a backslash. -/
theorem escape_ok (h : escape.run cur = .ok value next) :
    ∃ c, cur.rest = c :: next.rest ∧ next = cur.advance ∧ escapeValue? c = some value := by
  unfold escape at h
  rw [run_get_bind, run_get_bind] at h
  split at h
  · cases h
  · rename_i c hnext
    obtain ⟨rest, hrest⟩ := Cursor.peek?_eq_some_iff.1 hnext
    split at h
    · rename_i found hescape
      obtain ⟨rfl, rfl⟩ := run_pure_ok_iff.1 h
      rw [Cursor.rest_advance hrest]
      exact ⟨c, hrest, rfl, hescape⟩
    · cases h

/-- The quote that closes a character literal. -/
theorem closingQuote_ok {a : Char} {error : ScanError} (h : EStateM.run (do
      let closing := (← get).peek?
      modify Cursor.advance
      if closing = some '\'' then return value else throw error
      : Scan Char) cur = .ok a next) : cur.rest = '\'' :: next.rest ∧ next = cur.advance := by
  rw [run_get_bind, run_modify_bind] at h
  split at h
  · rename_i hclosing
    obtain ⟨rest, hrest⟩ := Cursor.peek?_eq_some_iff.1 hclosing
    obtain ⟨-, rfl⟩ := run_pure_ok_iff.1 h
    rw [Cursor.rest_advance hrest, hrest]
    exact ⟨rfl, rfl⟩
  · cases h

/-- A character literal ends behind its closing quote, in code. -/
theorem charLiteral_ok {a : Char} (hquote : cur.peek? = some '\'')
    (h : charLiteral.run cur = .ok a next) : QuotedTo cur next := by
  obtain ⟨text, here⟩ := cur
  obtain ⟨rest, hrest⟩ := Cursor.peek?_eq_some_iff.1 hquote
  subst hrest
  unfold charLiteral at h
  have hclose : (Region.quoted '\'').Leaves ['\''] := ⟨nofun, by decide, rfl⟩
  cases rest with
  | nil => cases h
  | cons c rest =>
    change EStateM.run (if c = '\n' ∨ c = '\'' then _ else _) (Cursor.mk rest _) = _ at h
    split at h
    case isTrue => cases h
    rename_i hplain
    rw [not_or] at hplain
    split at h
    · rename_i hescape
      subst hescape
      obtain ⟨value, middle, hvalue, h⟩ := run_bind_ok_iff.1 h
      obtain ⟨d, hd, rfl, hescape⟩ := escape_ok hvalue
      obtain ⟨hlast, hnext⟩ := closingQuote_ok h
      change rest = _ at hd
      refine ⟨'\'', ['\\', d, '\''], .inr rfl, ?_, hnext, leaves_escaped hescape hclose⟩
      rw [hd, hlast]
      rfl
    · rename_i hescape
      obtain ⟨hlast, hnext⟩ := closingQuote_ok h
      change rest = _ at hlast
      refine ⟨'\'', [c, '\''], .inr rfl, ?_, hnext,
        leaves_plain hplain.1 hescape hplain.2 hclose⟩
      rw [hlast]
      rfl

-- ==== numbers

theorem inertFront_fractionOf (text : List Char) :
    InertFront (if (Numeral.fractionOf text).isEmpty then 0
      else (Numeral.fractionOf text).length + 1) text := by
  have hdigits : sourceMarks.all fun mark => !mark.isDigit := by decide
  unfold Numeral.fractionOf
  split
  · rename_i c rest
    split
    · rename_i hc
      exact (((InertFront.takeWhile hdigits rest).succ (isInert_of_class hdigits hc)).succ rfl)
    · exact InertFront.zero _
  · exact InertFront.zero _

/-- The fraction of a number, which only a decimal one has. -/
theorem inertFront_fraction (decimal : Prop) [Decidable decimal] (text : List Char) :
    InertFront (if (if decimal then Numeral.fractionOf text else []).isEmpty
      then 0
      else (if decimal then Numeral.fractionOf text else []).length + 1)
      text := by
  by_cases hdecimal : decimal
  · simp only [if_pos hdecimal]
    exact inertFront_fractionOf text
  · simp only [if_neg hdecimal]
    exact InertFront.zero text

theorem inertFront_exponentOf (text : List Char) :
    InertFront (((Numeral.exponentOf text).map fun found => found.2.2).getD 0) text := by
  have hdigits : sourceMarks.all fun mark => !mark.isDigit := by decide
  unfold Numeral.exponentOf
  split
  · rename_i mark c rest
    split
    case isFalse => exact InertFront.zero _
    rename_i hmark
    have hmark : isInert mark = true := by
      rcases hmark with rfl | rfl <;> rfl
    split
    · rename_i hc
      exact ((InertFront.takeWhile hdigits rest).succ (isInert_of_class hdigits hc)).succ hmark
    · split
      case isFalse => exact InertFront.zero _
      rename_i hsign
      have hsign : isInert c = true := by
        rcases hsign with rfl | rfl <;> rfl
      simp only
      split
      · exact InertFront.zero _
      · exact ((InertFront.takeWhile hdigits rest).succ hsign).succ hmark
  · exact InertFront.zero _

/-- The exponent of a number, which only a decimal one has. -/
theorem inertFront_exponent (decimal : Prop) [Decidable decimal] (text : List Char) :
    InertFront (((if decimal then Numeral.exponentOf text else none).map
      fun found => found.2.2).getD 0) text := by
  by_cases hdecimal : decimal
  · rw [if_pos hdecimal]
    exact inertFront_exponentOf text
  · rw [if_neg hdecimal]
    exact InertFront.zero text

theorem inertFront_mark (text : List Char) : InertFront (Radix.ofMark text).markLength text := by
  unfold Radix.ofMark
  split
  all_goals
    first
    | exact InertFront.zero _
    | exact ((InertFront.zero _).succ rfl).succ rfl

theorem sourceMarks_isDigit (radix : Radix) :
    sourceMarks.all fun mark => !(radix.isDigit mark || mark == '_') := by
  cases radix <;> decide

/-- Plain text in front of plain text, one part after the other. -/
theorem inertFront_parts {sign mark whole point power : Nat} (hsign : InertFront sign text)
    (hmark : InertFront mark (text.drop sign))
    (hwhole : InertFront whole ((text.drop sign).drop mark))
    (hpoint : InertFront point (((text.drop sign).drop mark).drop whole))
    (hpower : InertFront power ((((text.drop sign).drop mark).drop whole).drop point)) :
    InertFront (sign + mark + whole + point + power) text := by
  simp only [List.drop_drop] at hwhole hpoint hpower
  exact (((hsign.add hmark).add hwhole).add hpoint).add hpower

/-- A number is made of plain characters. -/
theorem inertFront_numeral (text : List Char) : InertFront (Numeral.ofText text).length text := by
  have hbody : ∀ signed : Bool, (if signed then text.drop 1 else text)
      = text.drop (if signed then 1 else 0) := by
    intro signed
    cases signed <;> rfl
  unfold Numeral.ofText
  simp only [hbody]
  apply inertFront_parts
  · split
    · rename_i hsigned
      rw [Bool.or_eq_true, decide_eq_true_iff, decide_eq_true_iff] at hsigned
      obtain ⟨rest, hrest⟩ | ⟨rest, hrest⟩ :=
        hsigned.imp List.head?_eq_some_iff.1 List.head?_eq_some_iff.1
      · rw [hrest]
        exact (InertFront.zero rest).succ rfl
      · rw [hrest]
        exact (InertFront.zero rest).succ rfl
    · exact InertFront.zero text
  · exact inertFront_mark _
  · exact InertFront.takeWhile (sourceMarks_isDigit _) _
  · exact inertFront_fraction _ _
  · exact inertFront_exponent _ _

-- ==== readers

/-- Whether the first so many characters do not end inside a word. -/
def EndsOutside (count : Nat) (text : List Char) : Prop :=
  ∀ d ∈ (text.take count).getLast?, isWordChar d = true →
    ∀ d ∈ (text.drop count).head?, isWordChar d = false

/-- A relation between a text and what is left of it that holds over
blanks, comments, quoted text and inert text. -/
structure Skips (R : List Char → List Char → Prop) : Prop where
  refl : ∀ text, R text text
  trans : ∀ {text middle rest}, R text middle → R middle rest → R text rest
  trivia : ∀ cur : Cursor, R cur.rest cur.skipTrivia.rest
  inline : ∀ cur : Cursor, R cur.rest cur.skipInline.rest
  front : ∀ {count text}, InertFront count text → EndsOutside count text → R text (text.drop count)
  quoted : ∀ {text rest}, Quoted text rest → R text rest

variable {α β : Type}

/-- Whether a reader that succeeds passes text over which the relation
holds. -/
def Keeps (R : List Char → List Char → Prop) (step : Scan α) : Prop :=
  ∀ ⦃cur next : Cursor⦄ ⦃a : α⦄, step.run cur = .ok a next → R cur.rest next.rest

namespace Skips

variable {R : List Char → List Char → Prop} (h : Skips R)
include h

theorem bind {step : Scan α} {f : α → Scan β} (hstep : Keeps R step)
    (hf : ∀ a, Keeps R (f a)) : Keeps R (step >>= f) := by
  intro cur next b hrun
  obtain ⟨a, _, ha, hb⟩ := run_bind_ok_iff.1 hrun
  exact h.trans (hstep ha) (hf a hb)

theorem pure (a : α) : Keeps R (Pure.pure a : Scan α) := by
  intro cur next b hrun
  obtain ⟨-, rfl⟩ := run_pure_ok_iff.1 hrun
  exact h.refl _

theorem get : Keeps R (MonadState.get : Scan Cursor) := by
  intro cur next a hrun
  cases hrun
  exact h.refl _

theorem skipTrivia : Keeps R skipTrivia := by
  intro cur next a hrun
  cases hrun
  exact h.trivia cur

theorem skipInline : Keeps R skipInline := by
  intro cur next a hrun
  cases hrun
  exact h.inline cur

theorem atLineEnd : Keeps R atLineEnd := h.bind h.skipInline fun _ => h.bind h.get fun _ => h.pure _

theorem drop {count : Nat} {a : Unit} (hinert : InertFront count cur.rest)
    (hends : EndsOutside count cur.rest)
    (hrun : (modify (Cursor.drop count) : Scan Unit).run cur
      = .ok a next) : R cur.rest next.rest := by
  cases hrun
  rw [rest_drop]
  exact h.front hinert hends

/-- A character that is no part of a word is passed behind blanks. -/
theorem of_eat (hinert : isInert c = true) (hword : isWordChar c = false)
    (hrun : (eat c).run cur = .ok true next) : R cur.rest next.rest := by
  refine h.trans (h.trivia cur) ?_
  rw [rest_of_eat hrun]
  refine h.front ((InertFront.zero next.rest).succ hinert) ?_
  intro d hd hchar
  obtain rfl : c = d := Option.some.inj hd
  rw [hword] at hchar
  cases hchar

theorem expect (hinert : isInert c = true) (hword : isWordChar c = false) :
    Keeps R (expect c) := fun _ _ _ hrun => h.of_eat hinert hword (eat_of_expect hrun)

theorem eat (hinert : isInert c = true) (hword : isWordChar c = false) : Keeps R (eat c) := by
  intro cur next a hrun
  cases a with
  | true => exact h.of_eat hinert hword hrun
  | false =>
    rw [run_eat] at hrun
    split at hrun
    · cases hrun
    · cases hrun
      exact h.trivia cur

theorem word : Keeps R word := by
  refine h.bind h.skipTrivia fun _ => ?_
  intro cur next a hrun
  rw [run_get_bind] at hrun
  split at hrun
  · rename_i text hword
    obtain ⟨_, hdrop, -⟩ := run_bind_pure_ok_iff.1 hrun
    exact h.drop (inertFront_leadingWord hword).1 (fun _ _ _ => head_drop_leadingWord hword) hdrop
  · cases hrun

theorem dotted : Keeps R dotted := by
  refine h.bind h.skipTrivia fun _ => ?_
  intro cur next a hrun
  rw [run_get_bind] at hrun
  split at hrun
  · cases hrun
  · rename_i c text htext
    split at hrun
    · rename_i hstart
      obtain ⟨_, hdrop, -⟩ := run_bind_pure_ok_iff.1 hrun
      refine h.drop ?_ (fun _ _ _ => ?_) hdrop
      · rw [htext]
        exact (inertFront_dottedTail text).succ
          (isInert_of_class sourceMarks_isWordChar (isWordChar_of_isWordStart hstart))
      · rw [htext]
        exact head_drop_dottedTail text
    · cases hrun

theorem dimensions : Keeps R dimensions := by
  intro cur next a hrun
  unfold Scan.dimensions at hrun
  rw [run_get_bind] at hrun
  simp only at hrun
  split at hrun
  · obtain ⟨_, hdrop, -⟩ := run_bind_pure_ok_iff.1 hrun
    refine h.drop (inertFront_bracketPairs _) ?_ hdrop
    intro d hd hchar
    rw [getLast?_bracketPairs _ d hd] at hchar
    exact absurd hchar (by decide)
  · cases hrun

theorem typeName : Keeps R typeName :=
  h.bind h.dotted fun _ => h.bind h.dimensions fun _ => h.pure _

theorem string : Keeps R string :=
  fun cur _ _ hrun => h.trans (h.trivia cur) (h.quoted (string_ok hrun).quoted)

theorem number : Keeps R number := by
  intro cur next a hrun
  unfold Scan.number at hrun
  rw [run_get_bind, run_modify_bind, run_get_bind] at hrun
  split at hrun
  · split at hrun
    · cases hrun
    · rename_i hword
      obtain ⟨-, rfl⟩ := run_pure_ok_iff.1 hrun
      rw [rest_drop]
      refine h.front (inertFront_numeral cur.rest) ?_
      intro _ _ _ d hd
      rw [peek?, rest_drop, Option.mem_def.1 hd] at hword
      exact Bool.eq_false_iff.2 hword
  · split at hrun <;> cases hrun

theorem literal : Keeps R literal := by
  refine h.bind h.skipTrivia fun _ => ?_
  intro cur next a hrun
  rw [run_get_bind] at hrun
  split at hrun
  · cases hrun
  · rename_i c hnext
    split at hrun
    · exact (h.bind h.string fun _ => h.pure _) hrun
    · split at hrun
      · rename_i hquote
        rw [hquote] at hnext
        obtain ⟨_, hvalue, -⟩ := run_bind_pure_ok_iff.1 hrun
        exact h.quoted (charLiteral_ok hnext hvalue).quoted
      · split at hrun
        · exact h.number hrun
        · split at hrun
          · cases hrun
          · rename_i word hword
            split at hrun
            · cases hrun
            · obtain ⟨_, hdrop, -⟩ := run_bind_pure_ok_iff.1 hrun
              exact h.drop (inertFront_leadingWord hword).1
                (fun _ _ _ => head_drop_leadingWord hword) hdrop

end Skips

-- ==== braces

/-- Whether a reader that succeeds passes no brace. -/
def Braceless (step : Scan α) : Prop :=
  ∀ ⦃cur next : Cursor⦄ ⦃a : α⦄, step.run cur = .ok a next → Passes [] cur.rest next.rest

theorem skips_passes : Skips (Passes []) where
  refl := Passes.refl
  trans := Passes.trans
  trivia := passes_skipTrivia
  inline := passes_skipInline
  front hinert _ := hinert.passes
  quoted := Quoted.passes

theorem braceless_expect (hplain : isPlain c = true) :
    (expect c).Braceless := fun _ _ _ h => passes_of_eat (eat_of_expect h) (passes_plain hplain _)

theorem braceless_eat (hplain : isPlain c = true) : (eat c).Braceless := by
  intro cur next a h
  cases a with
  | true => exact passes_of_eat h (passes_plain hplain _)
  | false =>
    rw [run_eat] at h
    split at h
    · cases h
    · cases h
      exact cur.passes_skipTrivia

theorem braceless_eatText (hplain : text.all isPlain = true) : (eatText text).Braceless := by
  refine skips_passes.bind skips_passes.skipTrivia fun _ => ?_
  intro cur next a h
  rw [run_get_bind] at h
  split at h
  · rename_i hstarts
    obtain ⟨-, rfl⟩ := run_pure_ok_iff.1 h
    obtain ⟨_, hrest⟩ := List.isPrefixOf_iff_prefix.1 hstarts
    obtain ⟨hlist, hbehind⟩ := code_of_plain_text (List.all_eq_true.1 hplain)
    refine ⟨text, ?_, hlist, .inl hbehind⟩
    rw [Cursor.rest_drop, ← hrest, List.drop_left]
  · obtain ⟨-, rfl⟩ := run_pure_ok_iff.1 h
    exact Passes.refl _

/-- What it means that a word was read. -/
theorem word_ok {name : String} (h : word.run cur = .ok name next) :
    Passes [] cur.rest next.rest ∧ Text.IsWord name ∧ next.rest.length < cur.rest.length := by
  have hpasses := skips_passes.word h
  obtain ⟨_, _, hskip, h⟩ := run_bind_ok_iff.1 h
  cases hskip
  rw [run_get_bind] at h
  have hle := cur.passes_skipTrivia.length_le
  split at h
  · rename_i text hword
    obtain ⟨_, hdrop, rfl⟩ := run_bind_pure_ok_iff.1 h
    obtain ⟨-, hne, hchars⟩ := inertFront_leadingWord hword
    refine ⟨hpasses, ?_, ?_⟩
    · unfold Text.IsWord
      rw [String.toList_ofList]
      exact ⟨hne, hchars⟩
    · cases hdrop
      have hfront := List.length_pos_iff.2 hne
      have hrest : cur.skipTrivia.rest ≠ [] := by
        intro hnil
        unfold Cursor.word? at hword
        rw [hnil] at hword
        cases hword
      have hpos := List.length_pos_iff.2 hrest
      show (cur.skipTrivia.drop text.length).rest.length < _
      rw [Cursor.rest_drop, List.length_drop]
      omega
  · cases h

end Scan

end StackAsm
