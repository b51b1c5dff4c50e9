/-
Worklists over the places of a set of sources. A place offered to a
worklist is queued unless it was offered before. The places not yet
offered and the places queued are, together, never more after an offer,
and taking one from the queue leaves fewer. That number bounds the walk.
-/
import StackAsm.Build.Sources

namespace StackAsm

structure Worklist (sources : SourceSet) where
  /-- Every place offered so far, the last first. -/
  seen : List sources.Place := []
  /-- The places still to be visited. -/
  queue : List sources.Place := []

namespace Worklist

variable {sources : SourceSet}

def offer (work : Worklist sources) (place : sources.Place) : Worklist sources :=
  if work.seen.contains place then work
  else { seen := place :: work.seen, queue := work.queue ++ [place] }

def offerAll (work : Worklist sources) (places : List sources.Place) : Worklist sources :=
  places.foldl offer work

-- ==== termination

/-- How many places were never offered. -/
def unseen (seen : List sources.Place) : Nat :=
  sources.places.attach.countP fun place => !seen.contains place

/-- How many visits there can still be. -/
def size (work : Worklist sources) : Nat := unseen work.seen + work.queue.length

/-- An element that was not seen is one less to see. -/
theorem countP_notSeen_cons_lt {α : Type} [BEq α] [LawfulBEq α] {item : α} {seen : List α}
    {list : List α} (member : item ∈ list) (fresh : seen.contains item = false) :
    list.countP (fun x => !(item :: seen).contains x) < list.countP (fun x => !seen.contains x) := by
  induction list with
  | nil => cases member
  | cons head rest ih =>
    have shrinks : rest.countP (fun x => !(item :: seen).contains x)
        ≤ rest.countP (fun x => !seen.contains x) := by
      apply List.countP_mono_left
      intro x _ kept
      simp_all
    simp only [List.countP_cons]
    rcases List.mem_cons.1 member with same | inner
    · have gone : (!(item :: seen).contains head) = false := by simp [same]
      have left : (!seen.contains head) = true := by rw [← same, fresh]; rfl
      rw [if_neg (by simp only [gone]; decide), if_pos left]
      omega
    · have smaller := ih inner
      have step : (if (!(item :: seen).contains head) = true then 1 else 0)
          ≤ (if (!seen.contains head) = true then 1 else 0) := by
        by_cases old : seen.contains head <;> by_cases same : head == item <;>
          simp_all
      omega

theorem size_offer_le (work : Worklist sources) (place : sources.Place) :
    (work.offer place).size ≤ work.size := by
  unfold offer
  split
  · exact Nat.le_refl _
  · rename_i fresh
    have smaller : unseen (place :: work.seen) < unseen work.seen :=
      countP_notSeen_cons_lt (List.mem_attach _ place) (Bool.eq_false_iff.2 fresh)
    simp only [size, List.length_append, List.length_singleton]
    omega

theorem size_offerAll_le (places : List sources.Place) (work : Worklist sources) :
    (work.offerAll places).size ≤ work.size := by
  induction places generalizing work with
  | nil => exact Nat.le_refl _
  | cons place rest ih => exact Nat.le_trans (ih _) (size_offer_le work place)

-- ==== walks

/-- Visit the queued places in order; each visit says which places to
offer next. -/
def visitAll {m : Type → Type} [Monad m] (visit : sources.Place → m (List sources.Place))
    (work : Worklist sources) : m Unit :=
  match _queued : work.queue with
  | [] => return ()
  | place :: rest => do
    let found ← visit place
    visitAll visit (Worklist.offerAll { work with queue := rest } found)
termination_by work.size
decreasing_by
  have bound := size_offerAll_le found { work with queue := rest }
  simp only [size, _queued, List.length_cons] at bound ⊢
  omega

end Worklist

end StackAsm
