/-
Text in quotes, read and skipped. A line that is passed over and a search
for labels skip text in quotes without reading it (`Cursor.skipQuoted`).
They stop where a literal ends that can be read, and never leave the line.
However a string is spelled, it is read as the string
(`Scan.quotes_agree`).
-/
import StackAsm.Proofs.Source.Silence

namespace StackAsm

namespace Cursor

variable {region : Region} {front rest : List Char} {here : Position}

/-- Behind text that starts in a region, up to code or to the end of its
line. -/
def regionEnd (region : Region) : List Char → Position → Cursor
  | [], here => ⟨[], here⟩
  | c :: rest, here =>
    if region = .code ∨ c = '\n' then ⟨c :: rest, here⟩
    else regionEnd (region.after c) rest (here.after c)

/-- Behind the text in quotes that starts here. -/
def skipQuoted (cur : Cursor) : Cursor :=
  match cur.rest with
  | [] => cur
  | quote :: rest => regionEnd (.quoted quote) rest (cur.position.after quote)

theorem regionEnd_cons (c : Char) : regionEnd region (c :: rest) here
    = if region = .code ∨ c = '\n' then ⟨c :: rest, here⟩
      else regionEnd (region.after c) rest (here.after c) := rfl

/-- No line feed is passed. -/
theorem regionEnd_spec (region : Region) (text : List Char) (here : Position) :
    ∃ front, text = front ++ (regionEnd region text here).rest ∧ '\n' ∉ front
      ∧ (regionEnd region text here).line = here.line := by
  induction text generalizing region here with
  | nil => exact ⟨[], rfl, List.not_mem_nil, rfl⟩
  | cons c text ih =>
    rw [regionEnd_cons]
    split
    · exact ⟨[], rfl, List.not_mem_nil, rfl⟩
    · rename_i hinside
      rw [not_or] at hinside
      obtain ⟨front, htext, hfront, hline⟩ := ih (region.after c) (here.after c)
      refine ⟨c :: front, congrArg (c :: ·) htext, ?_, ?_⟩
      · rw [List.mem_cons, not_or]
        exact ⟨Ne.symm hinside.2, hfront⟩
      · rw [hline, Position.after, if_neg hinside.2]

theorem regionEnd_code (text : List Char) (here : Position) :
    regionEnd .code text here = ⟨text, here⟩ := by
  cases text <;> rfl

theorem regionEnd_of_leaves (h : region.Leaves front) :
    regionEnd region (front ++ rest) here
      = (Cursor.mk (front ++ rest) here).drop front.length := by
  induction front generalizing region here with
  | nil =>
    obtain rfl : region = .code := h
    exact regionEnd_code ..
  | cons c front ih =>
    rw [List.cons_append, regionEnd_cons, if_neg (not_or.2 ⟨h.1, h.2.1⟩)]
    exact ih h.2.2

/-- Passing over a line skips what is not code. -/
theorem restOfLineFrom_eq (region : Region) (text : List Char) (here : Position) :
    restOfLineFrom region text here = (regionEnd region text here).restOfLine := by
  induction text generalizing region here with
  | nil => rfl
  | cons c text ih =>
    rw [regionEnd_cons]
    split
    · rename_i hends
      rcases hends with rfl | rfl <;> rfl
    · rename_i hinside
      rw [not_or] at hinside
      rw [restOfLineFrom, if_neg hinside.2, Brace.of?, if_neg hinside.1, ← ih]
      rfl

/-- A search for labels skips what is not code. -/
theorem run_eq_regionEnd (hregion : region ≠ .code) (search : LabelSearch) (text : List Char) :
    { search with region }.run text here
      = { search with region := .code, inWord := false }.run (regionEnd region text here).rest
        (regionEnd region text here).position := by
  induction text generalizing region search here with
  | nil => rfl
  | cons c text ih =>
    have hstep : { search with region }.step c text here.line
        = some { search with region := region.after c, inWord := false } := by
      simp [LabelSearch.step, Brace.of?, hregion]
    rw [LabelSearch.run, hstep, regionEnd_cons]
    by_cases hline : c = '\n'
    · rw [if_pos (.inr hline), hline, Region.after_newline]
      rfl
    · rw [if_neg (not_or.2 ⟨hregion, hline⟩)]
      by_cases hcode : region.after c = .code
      · rw [hcode, regionEnd_code]
      · exact ih hcode { search with inWord := false }

end Cursor

namespace Scan

/-- The characters behind a backslash, with what they stand for. -/
def escapes : List (Char × Char) := [('\\', '\\'), ('\'', '\''), ('"', '"'), ('0', '\x00'),
  ('a', '\x07'), ('b', '\x08'), ('f', '\x0c'), ('n', '\n'), ('r', '\r'), ('t', '\t'), ('v', '\x0b')]

/-- A way to write the characters of a string between quotes. -/
inductive Spells : List Char → List Char → Prop where
  | nil : Spells [] []
  | raw {c : Char} {text spelling : List Char} : c ∉ ['\n', '\\', '"'] → Spells text spelling →
    Spells (c :: text) (c :: spelling)
  | escaped {c value : Char} {text spelling : List Char} : (c, value) ∈ escapes →
    Spells text spelling → Spells (value :: text) ('\\' :: c :: spelling)

theorem stringBody_of_spells {text spelling rest : List Char} {opening here : Position}
    (h : Spells text spelling) : stringBody opening (spelling ++ '"' :: rest) here
      = .ok text ((Cursor.mk (spelling ++ '"' :: rest) here).drop (spelling.length + 1)) := by
  induction h generalizing here with
  | nil => simp [stringBody]; rfl
  | raw hc _ ih =>
    simp only [List.mem_cons, List.not_mem_nil, or_false, not_or] at hc
    rw [List.cons_append, stringBody]
    · simp only [hc, if_false, ih]
      rfl
    · simp [hc]
    · simp [hc]
  | escaped hc _ ih =>
    have hall : escapes.all fun (c, value) => escapeValue? c = some value := by decide
    have hc := of_decide_eq_true (List.all_eq_true.1 hall _ hc)
    simp only [List.cons_append, stringBody, hc, ih]
    rfl

/-- What a literal that starts with a quote stands between. -/
theorem literal_ok {cur next : Cursor} {value : Literal}
    (hquote : cur.peek? = some '"' ∨ cur.peek? = some '\'')
    (h : literal.run cur = .ok value next) : QuotedTo cur next := by
  have hsame : cur.skipTrivia = cur := by
    rcases hquote with hquote | hquote <;> exact Cursor.skipTrivia_of_peek? hquote (by decide)
  obtain ⟨_, _, hskip, h⟩ := run_bind_ok_iff.1 h
  cases hskip
  rw [hsame, run_get_bind] at h
  rcases hquote with hquote | hquote <;> simp only [hquote] at h
  · obtain ⟨text, htext, -⟩ := run_bind_pure_ok_iff.1 h
    exact hsame ▸ string_ok htext
  · obtain ⟨_, hvalue, -⟩ := run_bind_pure_ok_iff.1 h
    exact charLiteral_ok hquote hvalue

/-- Where a literal in quotes can be read, skipping it ends at the same
cursor. Skipping passes no line feed, whatever follows the quote; and it
is what passing over a line and searching for labels do there. Every
spelling of a string is read as the string, up to the quote behind it. -/
theorem quotes_agree (cur : Cursor) :
    (cur.peek? = some '"' ∨ cur.peek? = some '\'' →
        (∀ value next, literal.run cur = .ok value next → cur.skipQuoted = next)
        ∧ (∃ front, cur.rest = front ++ cur.skipQuoted.rest ∧ '\n' ∉ front
          ∧ cur.skipQuoted.line = cur.line)
        ∧ cur.restOfLine = cur.skipQuoted.restOfLine
        ∧ ∀ search : LabelSearch, search.region = .code → search.run cur.rest cur.position
          = { search with inWord := false }.run cur.skipQuoted.rest cur.skipQuoted.position)
      ∧ ∀ text spelling rest, Spells text spelling → cur.rest = '"' :: (spelling ++ '"' :: rest) →
        string.run cur = .ok (String.ofList text) (cur.drop (spelling.length + 2)) := by
  refine ⟨fun hpeek => ?_, ?_⟩
  · obtain ⟨_ | ⟨quote, rest⟩, here⟩ := cur
    · rcases hpeek with hpeek | hpeek <;> cases hpeek
    have hquote : quote = '"' ∨ quote = '\'' := by simpa [Cursor.peek?] using hpeek
    refine ⟨fun value next hread => ?_, ?_, ?_, fun search hcode => ?_⟩
    · obtain ⟨_, front, -, hrest, hnext, hleaves⟩ := literal_ok hpeek hread
      obtain ⟨rfl, rfl⟩ := List.cons.inj hrest
      exact (Cursor.regionEnd_of_leaves hleaves).trans hnext.symm
    · obtain ⟨front, hfront, hline, hsame⟩ :=
        Cursor.regionEnd_spec (.quoted quote) rest (here.after quote)
      refine ⟨quote :: front, congrArg (quote :: ·) hfront, ?_, hsame.trans ?_⟩
      · rcases hquote with rfl | rfl <;> simpa using hline
      · rcases hquote with rfl | rfl <;> rfl
    · rcases hquote with rfl | rfl <;> exact Cursor.restOfLineFrom_eq (.quoted _) rest _
    · obtain ⟨region, inWord, depth, found⟩ := search
      obtain rfl : region = .code := hcode
      refine Eq.trans ?_ (@Cursor.run_eq_regionEnd (.quoted quote) _ Region.noConfusion
        ⟨.code, false, depth, found⟩ rest)
      rcases hquote with rfl | rfl <;> cases inWord <;> rfl
  · obtain ⟨_, here⟩ := cur
    rintro text spelling rest hspells ⟨⟩
    have hbody := @stringBody_of_spells _ _ rest here (here.after '"') hspells
    rw [string, skipTrivia, run_modify_bind, Cursor.skipTrivia_of_peek? rfl (by decide)]
    show EStateM.run (do
      let text ← (fun _ => stringBody here (spelling ++ '"' :: rest) (here.after '"') : Scan _)
      return String.ofList text) ⟨'"' :: (spelling ++ '"' :: rest), here⟩ = _
    exact run_bind_of_ok hbody

end Scan

end StackAsm
