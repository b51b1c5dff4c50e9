/-
What is added to a log. A log only grows: `Log.Adds` says so, with what
is known of the messages that were added. So the number of errors never
falls, and an error that is reported is counted, whatever the log makes
of warnings: where the number is the same before and after, no error was
reported in between.
-/
import StackAsm.Diagnostic.Log

namespace StackAsm

namespace Log

variable {d : Diagnostic}

theorem isError_recorded (log : Log) (h : d.isError = true) : (log.recorded d).isError = true := by
  unfold recorded
  simp only
  split
  · rfl
  · split <;> exact h

theorem errorCount_report (log : Log) (d : Diagnostic) :
    (log.report d).errorCount
      = log.errorCount + if (log.recorded d).isError then 1 else 0 :=
  List.countP_cons ..

theorem errorCount_le_report (log : Log) (d : Diagnostic) :
    log.errorCount ≤ (log.report d).errorCount := by
  rw [errorCount_report]
  exact Nat.le_add_right ..

theorem errorCount_lt_report (log : Log) (h : d.isError = true) :
    log.errorCount < (log.report d).errorCount := by
  rw [errorCount_report, if_pos (isError_recorded log h)]
  exact Nat.lt_succ_self _

theorem errorCount_le_reportAll (log : Log) (ds : List Diagnostic) :
    log.errorCount ≤ (log.reportAll ds).errorCount := by
  induction ds generalizing log with
  | nil => exact Nat.le_refl _
  | cons d rest ih =>
    exact Nat.le_trans (log.errorCount_le_report d) (ih (log.report d))

/-- If errors are reported and their number stays, then there are none. -/
theorem eq_nil_of_reportAll {log : Log} {ds : List Diagnostic}
    (herrors : ∀ d ∈ ds, d.isError = true)
    (h : (log.reportAll ds).errorCount = log.errorCount) : ds = [] := by
  cases ds with
  | nil => rfl
  | cons d rest =>
    have hlt := log.errorCount_lt_report (herrors d (.head _))
    have hle := (log.report d).errorCount_le_reportAll rest
    change (reportAll (log.report d) rest).errorCount = _ at h
    omega

-- ==== additions

variable {P : String → Prop} {log middle next : Log}

/-- Whether a log goes on from another one, as strict, with messages that
have a property. -/
structure Adds (P : String → Prop) (log next : Log) : Prop where
  reported : ∃ new, next.reported = new ++ log.reported ∧ ∀ d ∈ new, P d.message
  strict : next.warningsAsErrors = log.warningsAsErrors

theorem adds_of_reported (h : next.reported = log.reported)
    (hstrict : next.warningsAsErrors = log.warningsAsErrors) :
    Adds P log next := ⟨⟨[], h, List.forall_mem_nil _⟩, hstrict⟩

theorem Adds.trans (hfirst : Adds P log middle)
    (hsecond : Adds P middle next) : Adds P log next := by
  obtain ⟨new, hnew, hplain⟩ := hfirst.reported
  obtain ⟨newer, hnewer, hplainer⟩ := hsecond.reported
  refine ⟨⟨newer ++ new, ?_, List.forall_mem_append.2 ⟨hplainer, hplain⟩⟩,
    hsecond.strict.trans hfirst.strict⟩
  rw [hnewer, hnew, List.append_assoc]

theorem message_recorded (log : Log) (d : Diagnostic) : (log.recorded d).message = d.message := by
  unfold recorded
  split
  · split <;> rfl
  · split <;> rfl

theorem adds_report (log : Log) (h : P d.message) : Adds P log (log.report d) := by
  refine ⟨⟨[log.recorded d], rfl, ?_⟩, rfl⟩
  rw [List.forall_mem_singleton, message_recorded]
  exact h

theorem adds_reportAll (log : Log) {ds : List Diagnostic}
    (h : ∀ d ∈ ds, P d.message) : Adds P log (log.reportAll ds) := by
  induction ds generalizing log with
  | nil => exact adds_of_reported rfl rfl
  | cons d rest ih =>
    obtain ⟨hd, hrest⟩ := List.forall_mem_cons.1 h
    exact (log.adds_report hd).trans (ih (log.report d) hrest)

theorem Adds.errorCount_le (h : Adds P log next) : log.errorCount ≤ next.errorCount := by
  obtain ⟨_, hnew, -⟩ := h.reported
  unfold errorCount Diagnostic.errorCount
  rw [hnew, List.countP_append]
  exact Nat.le_add_left ..

theorem Adds.forall_mem (h : Adds P log next) (hlog : ∀ d ∈ log.reported, P d.message) :
    ∀ d ∈ next.reported, P d.message := by
  obtain ⟨_, hnew, hplain⟩ := h.reported
  rw [hnew, List.forall_mem_append]
  exact ⟨hplain, hlog⟩

end Log

-- ==== messages

/-- Whether a message begins with another letter than those on branches
that could not be fixed. -/
def Diagnostic.Plain (message : String) : Prop := ∃ c ∈ message.toList.head?, c ≠ 'B'

namespace Diagnostic

variable {message : String}

theorem plain_iff : message.toList.head?.any (· != 'B') = true ↔ Plain message := by
  simp only [Option.any_eq_true, bne_iff_ne]
  rfl

instance (message : String) : Decidable (Plain message) := decidable_of_iff _ plain_iff

theorem plain_append (more : String) (h : Plain message) : Plain (message ++ more) := by
  obtain ⟨c, hc, hplain⟩ := h
  refine ⟨c, ?_, hplain⟩
  rw [String.toList_append, List.head?_append, Option.mem_def.1 hc]
  rfl

theorem plain_messageWith (subject : Option String) (h : Plain message) :
    Plain (messageWith message subject) := by
  cases subject with
  | none => exact h
  | some => exact plain_append _ (plain_append _ h)

end Diagnostic

end StackAsm
