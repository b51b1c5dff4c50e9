/-
Readers that the search for labels passes in silence. Blanks, comments,
words, names, numbers and quoted texts have no colon in them that would
count, and a reader of one never stops inside a word. So each of them is
silent, and so is what is put together from them (`Scan.Silent`). A word
with a colon right behind it is the one thing that is noted
(`namesFrom_label`).
-/
import StackAsm.Proofs.Source.Labels

namespace StackAsm

open Cursor LabelSearch

variable {depth : Nat} {found : List String} {cur : Cursor}

-- ==== trivia

theorem isWordStart_of_isBlank {c : Char} (h : Text.isBlank c = true) : isWordStart c = false := by
  simp only [Text.isBlank, Text.blankRanges, List.any_cons, List.any_nil,
    Bool.or_false, Bool.or_eq_true, Bool.and_eq_true, decide_eq_true_eq] at h
  -- letters and the underscore lie between the second range and the third
  have hbounds : c.toNat < 65 ∨ 122 < c.toNat := by omega
  have hstart : isWordStart c = (decide ('A'.val ≤ c.val ∧ c.val ≤ 'Z'.val)
        || 'a'.val ≤ c.val && c.val ≤ 'z'.val || c == '_') := rfl
  simp only [hstart, Bool.or_eq_false_iff, Bool.and_eq_false_iff,
    beq_eq_false_iff_ne, decide_eq_false_iff_not, UInt32.le_iff_toNat_le]
  have hA : 'A'.val.toNat = 65 := rfl
  have hZ : 'Z'.val.toNat = 90 := rfl
  have ha : 'a'.val.toNat = 97 := rfl
  have hz : 'z'.val.toNat = 122 := rfl
  have hc : c.val.toNat = c.toNat := rfl
  refine ⟨⟨by omega, by omega⟩, ?_⟩
  rintro rfl
  exact absurd hbounds (by decide)

/-- In front of anything but a blank or a comment there is nothing to
skip. -/
theorem Cursor.skipTrivia_of_peek? {c : Char} (hc : cur.peek? = some c)
    (hcode : c ≠ '\n' ∧ Text.isBlank c = false ∧ c ≠ ';') :
    cur.skipTrivia = cur := by
  obtain ⟨_, _⟩ := cur
  obtain ⟨_, rfl⟩ := List.head?_eq_some_iff.1 hc
  obtain ⟨hline, hblank, hcomment⟩ := hcode
  unfold skipTrivia triviaFrom
  simp only [hblank, Bool.or_self, Bool.false_eq_true, if_false, if_neg hline, if_neg hcomment]

theorem Cursor.skipTrivia_of_atEnd (h : cur.atEnd = true) : cur.skipTrivia = cur := by
  obtain ⟨text, _⟩ := cur
  obtain rfl : text = [] := List.isEmpty_iff.1 h
  rfl

theorem Cursor.skipTrivia_of_word? {word : List Char}
    (h : cur.word? = some word) : cur.skipTrivia = cur := by
  obtain ⟨text, _⟩ := cur
  cases text with
  | nil => rfl
  | cons c text =>
    change leadingWord? (c :: text) = some word at h
    rw [leadingWord?] at h
    split at h
    · rename_i hstart
      refine skipTrivia_of_peek? rfl ⟨?_, ?_, ?_⟩
      · rintro rfl
        exact absurd hstart (by decide)
      · by_contra hblank
        rw [Bool.not_eq_false] at hblank
        rw [isWordStart_of_isBlank hblank] at hstart
        cases hstart
      · rintro rfl
        exact absurd hstart (by decide)
    · cases h

/-- In blanks and comments nothing is noted. -/
theorem namesFrom_triviaFrom (inline inComment : Bool) (text : List Char) (here : Position) :
    namesFrom (triviaRegion inComment) false depth found text
      = namesFrom .code false depth found
        (triviaFrom inline inComment text here).rest := by
  have hnewline : ∀ {region text}, namesFrom region false depth found ('\n' :: text)
      = namesFrom .code false depth found ('\n' :: text) :=
    namesFrom_of_rests (.inr fun _ hd => (Option.some.inj hd).symm) (by simp)
  fun_induction triviaFrom inline inComment text here with
  | case1 => rfl
  | case2 => exact hnewline
  | case3 _ _ _ _ ih => exact hnewline.trans ih
  | case4 inComment c text _ hline hpassed ih =>
    refine Eq.trans ?_ ih
    cases inComment with
    | true =>
      have hafter : (triviaRegion true).after c = triviaRegion true := if_neg hline
      rw [namesFrom_covered Region.noConfusion, hafter]
    | false =>
      exact namesFrom_outside (isInert_iff.1 (isInert_of_isBlank hpassed hline)).2 (by simp)
        (isWordStart_of_isBlank hpassed)
  | case5 inComment _ _ _ hcode ih =>
    cases inComment with
    | true => cases hcode rfl
    | false => exact ih
  | case6 inComment _ _ _ _ hcode =>
    cases inComment with
    | true => cases hcode rfl
    | false => rfl

theorem silent_triviaFrom (inline : Bool) (text : List Char) (here : Position) :
    Silent text (triviaFrom inline false text here).rest := by
  refine ⟨?_, fun _ found =>
    ⟨found, namesFrom_triviaFrom inline false text here, fun _ => rfl⟩⟩
  intro hcolon
  obtain ⟨_, rfl⟩ := List.head?_eq_some_iff.1 hcolon
  rfl

theorem Cursor.silent_skipTrivia (cur : Cursor) :
    Silent cur.rest cur.skipTrivia.rest := silent_triviaFrom ..

theorem Cursor.silent_skipInline (cur : Cursor) :
    Silent cur.rest cur.skipInline.rest := silent_triviaFrom ..

-- ==== lines

/-- Over a line that is passed the search stays in step, as long as the
outermost block is not closed on it. -/
theorem exists_namesFrom_restOfLineFrom (region : Region) (inWord : Bool)
    (text : List Char) (here : Position) {last : Nat}
    (h : Brace.depthBehind? depth (restOfLineFrom region text here).1
      = some last) :
    ∃ later, namesFrom region inWord depth found text
      = namesFrom .code false last later
        (restOfLineFrom region text here).2.rest := by
  induction text generalizing region inWord depth found here with
  | nil => exact ⟨found, rfl⟩
  | cons c text ih =>
    unfold restOfLineFrom at h ⊢
    by_cases hline : c = '\n'
    · subst hline
      rw [if_pos rfl] at h ⊢
      cases h
      exact ⟨found, namesFrom_newline⟩
    · rw [if_neg hline] at h ⊢
      rw [namesFrom]
      cases hbrace : Brace.of? region c with
      | none =>
        rw [hbrace] at h
        simp only
        split
        · exact ih _ _ _ h
        · split <;> exact ih _ _ _ h
      | some brace =>
        rw [hbrace] at h
        cases brace with
        | opening => exact ih _ _ _ h
        | closing =>
          cases depth with
          | zero => cases h
          | succ => exact ih _ _ _ h

theorem exists_namesFrom_restOfLine (cur : Cursor) {last : Nat}
    (h : Brace.depthBehind? depth cur.restOfLine.1 = some last) :
    ∃ later, namesFrom .code false depth found cur.rest
      = namesFrom .code false last later cur.restOfLine.2.rest :=
  exists_namesFrom_restOfLineFrom .code false cur.rest cur.position h

-- ==== labels

/-- The names with one more, unless it is there. -/
def LabelSearch.addName (found : List String) (name : String) :
    List String := if name ∈ found then found else found ++ [name]

theorem LabelSearch.mem_addName (found : List String) (name : String) :
    name ∈ addName found name := by
  unfold addName
  split
  · assumption
  · simp

theorem namesFrom_word {word : List Char}
    (hword : ∀ d ∈ word, isWordChar d = true) (rest : List Char) :
    namesFrom .code true depth found (word ++ rest) = namesFrom .code true depth found rest := by
  induction word with
  | nil => rfl
  | cons d word ih =>
    obtain ⟨hd, hword⟩ := List.forall_mem_cons.1 hword
    rw [List.cons_append, namesFrom_inside hd, ih hword]

/-- Whether a label of that name is declared right here, with `rest`
behind its colon. -/
def LabelAt (text : List Char) (name : String) (rest : List Char) : Prop :=
  ∃ word, leadingWord? text = some word ∧ name = String.ofList word
    ∧ text = word ++ ':' :: rest ∧ marksLabel (':' :: rest) = true

theorem LabelAt.head_ne_colon {text rest : List Char} {name : String}
    (h : LabelAt text name rest) : text.head? ≠ some ':' := by
  obtain ⟨_, hword, -⟩ := h
  intro hcolon
  obtain ⟨_, rfl⟩ := List.head?_eq_some_iff.1 hcolon
  cases hword

theorem Cursor.labelAt_of_atLabel (h : cur.atLabel = true) :
    ∃ word rest, cur.word? = some word ∧ LabelAt cur.rest (String.ofList word) rest := by
  unfold atLabel at h
  split at h
  · rename_i word hword
    have hsplit := word_append_drop hword
    -- what makes a word a label starts with a colon
    generalize cur.rest.drop word.length = behind at h hsplit
    cases behind with
    | nil => cases h
    | cons c rest =>
      have hc : c = ':' := by
        unfold marksLabel at h
        split at h
        · cases h
        · rename_i heq
          exact (List.cons.inj heq).1
        · cases h
      subst hc
      exact ⟨word, rest, hword, word, hword, rfl, hsplit.symm, h⟩
  · cases h

/-- A word with a colon right behind it is noted. -/
theorem namesFrom_label {text rest : List Char} {name : String} (h : LabelAt text name rest) :
    namesFrom .code false 0 found text = namesFrom .code false 0 (addName found name) rest := by
  obtain ⟨_, hword, rfl, htext, hmarks⟩ := h
  cases text with
  | nil => cases hword
  | cons c behind =>
    rw [leadingWord?] at hword
    split at hword
    case isFalse => cases hword
    rename_i hstart
    cases hword
    rw [List.cons_append, List.cons.injEq] at htext
    have hchars : ∀ d ∈ behind.takeWhile isWordChar, isWordChar d = true := fun d hd =>
      List.all_eq_true.1 List.all_takeWhile d hd
    have hdrop : behind.dropWhile isWordChar = ':' :: rest := by
      have hsplit := @List.takeWhile_append_dropWhile _ isWordChar behind
      exact List.append_cancel_left (hsplit.trans htext.2)
    have hnoted : noted 0 found c behind = addName found
        (String.ofList (c :: behind.takeWhile isWordChar)) := by
      simp only [noted, addName, hdrop, hmarks, true_and]
      exact ite_not ..
    rw [namesFrom_start hstart, hnoted, htext.2, namesFrom_word hchars, namesFrom_colon, ← htext.2]

-- ==== readers

/-- Whether a reader that succeeds is passed in silence. -/
def Scan.Silent {α : Type} (step : Scan α) : Prop :=
  ∀ ⦃cur next : Cursor⦄ ⦃a : α⦄, step.run cur = .ok a next → StackAsm.Silent cur.rest next.rest

theorem Scan.skips_silent : Skips StackAsm.Silent where
  refl := .refl
  trans := .trans
  trivia := silent_skipTrivia
  inline := silent_skipInline
  front hinert hends := hinert.silent hends
  quoted := Quoted.silent

end StackAsm
