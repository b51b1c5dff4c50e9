/-
What the search for labels hears of a statement. An instruction and its
arguments are passed in silence, and so is the type of a local
(`Parse.Silent`). A statement that is read as a label stands right at a
word with its colon, which the search notes (`labelAt_of_word`). So the
two agree on what a statement is, though the search reads none.
-/
import StackAsm.Proofs.Parse.Reading
import StackAsm.Proofs.Source.Silence

namespace StackAsm

open Cursor

namespace Scan

variable {c : Char} {cur next : Cursor} {a : Unit}

-- ==== tokens

/-- Up to a character that was asked for there is nothing to hear. -/
theorem silent_before (h : (expect c).run cur = .ok a next) :
    StackAsm.Silent cur.rest (c :: next.rest) := by
  rw [← rest_of_eat (eat_of_expect h)]
  exact cur.silent_skipTrivia

theorem passes_before (h : (expect c).run cur = .ok a next) :
    Passes [] cur.rest (c :: next.rest) := by
  rw [← rest_of_eat (eat_of_expect h)]
  exact cur.passes_skipTrivia

/-- A character that stands right here and is asked for is passed
alone. -/
theorem rest_of_expect (hc : cur.peek? = some c)
    (hcode : c ≠ '\n' ∧ Text.isBlank c = false ∧ c ≠ ';')
    (h : (expect c).run cur = .ok a next) : cur.rest = c :: next.rest := by
  have hrest := rest_of_eat (eat_of_expect h)
  rwa [skipTrivia_of_peek? hc hcode] at hrest

/-- What is read as a label is one. -/
theorem labelAt_of_word {middle : Cursor} {name : String}
    (hlabel : cur.atLabel = true) (hname : word.run cur = .ok name middle)
    (hcolon : (expect ':').run middle = .ok a next) :
    LabelAt cur.rest name next.rest := by
  obtain ⟨word, rest, hword, hat⟩ := labelAt_of_atLabel hlabel
  have hskip := skipTrivia_of_word? hword
  obtain ⟨_, _, hmove, hname⟩ := run_bind_ok_iff.1 hname
  cases hmove
  rw [run_get_bind, hskip, hword] at hname
  obtain ⟨_, _, hdrop, hname⟩ := run_bind_ok_iff.1 hname
  cases hdrop
  obtain ⟨rfl, rfl⟩ := run_pure_ok_iff.1 hname
  -- behind the word there is the colon
  obtain ⟨same, hsame, -, htext, -⟩ := id hat
  obtain rfl : word = same := Option.some.inj (hword.symm.trans hsame)
  have hbehind : (cur.drop word.length).rest = ':' :: rest := by
    rw [rest_drop, htext, List.drop_left]
  have hpeek : (cur.drop word.length).peek? = some ':' := by
    rw [peek?, hbehind]
    rfl
  have hnext := rest_of_expect hpeek (by decide) hcolon
  rw [hbehind] at hnext
  obtain rfl : rest = next.rest := (List.cons.inj hnext).2
  exact hat

end Scan

namespace Parse

open Scan

-- ==== steps

variable {α β : Type}

/-- Whether a step that succeeds is passed in silence. -/
def Silent (step : Parse α) : Prop :=
  ∀ ⦃state next : ParseState⦄ ⦃a : α⦄, step.run state = .ok a next →
    StackAsm.Silent state.cursor.rest next.cursor.rest

theorem Silent.bind {step : Parse α} {f : α → Parse β}
    (hstep : Silent step) (hf : ∀ a, Silent (f a)) :
    Silent (step >>= f) := by
  intro state next b h
  obtain ⟨a, _, ha, hb⟩ := run_bind_ok_iff.1 h
  exact (hstep ha).trans (hf a hb)

theorem silent_scan {step : Scan α} (hstep : step.Silent) :
    Silent (scan step) := fun _ _ _ h => hstep (scan_ok h).1

/-- A step that does not read is passed in silence. -/
theorem silent_of_cursor {step : Parse α}
    (hstep : ∀ {state next : ParseState} {a : α},
      step.run state = .ok a next → next.cursor = state.cursor) :
    Silent step := by
  intro state next a h
  rw [hstep h]
  exact .refl _

theorem silent_visible (typePath : Option String) : Silent (visible typePath) := by
  refine silent_of_cursor fun h => ?_
  unfold visible at h
  cases h
  rfl

theorem silent_typeSpec (typePath : Option String) : Silent (typeSpec typePath) := by
  have hcursor : Silent cursor := silent_of_cursor fun h => by
    cases h
    rfl
  have hget : Silent (get : Parse ParseState) := silent_of_cursor fun h => by
    cases h
    rfl
  have hpure : ∀ spec : TypeSpec, Silent (pure spec : Parse TypeSpec) :=
    fun spec => silent_of_cursor fun h => by
      cases h
      rfl
  refine (silent_scan skips_silent.skipTrivia).bind fun _ =>
    hcursor.bind fun _ => ?_
  refine (silent_scan skips_silent.typeName).bind fun _ => ?_
  simp only
  split
  · exact hpure _
  · refine (silent_visible typePath).bind fun _ => ?_
    exact hget.bind fun _ => hpure _

end Parse

end StackAsm
