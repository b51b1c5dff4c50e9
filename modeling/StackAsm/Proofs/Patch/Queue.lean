/-
Patch queues over any number of calls. A queue knows every key it ever
took, so a key is taken when it comes for the first time and never again,
whether or not its patch has run by then. What waits is what was taken
since patches last ran (`PatchQueue.waiting_after`), and it runs from the
highest key down: every patch once, failing or not. So no key runs twice,
and what runs for it is what came with it first
(`PatchQueue.first_patches_run_once`).
-/
import Mathlib.Data.List.DropRight
import StackAsm.Patch.Queue

namespace StackAsm

variable {α ε : Type}

-- ==== patches

namespace Patch

/-- What a patch makes of an item, failing or not. -/
def effect (item : α) (patch : Patch α ε) : α := match patch.run item with
  | .ok changed => changed
  | .error _ => patch.onFailure item

/-- How a patch fails on an item. -/
def failure? (patch : Patch α ε) (item : α) : Option (PatchKey × ε) := match patch.run item with
  | .ok _ => none
  | .error failure => some (patch.key, failure)

/-- The failures of patches that run one behind the other, each on what
those before it have made of the item. -/
def failures (patches : List (Patch α ε)) (item : α) :
    List (PatchKey × ε) := (patches.zip (patches.scanl effect item)).filterMap fun turn =>
    turn.1.failure? turn.2

/-- What running them is answered with: how many there are, or the
failures. -/
def verdict (patches : List (Patch α ε)) (item : α) :
    Except (List (PatchKey × ε)) Nat := if (failures patches item).isEmpty then .ok patches.length
  else .error (failures patches item)

/-- The patches whose key none before them has. -/
def firsts : List (Patch α ε) → List (Patch α ε)
  | [] => []
  | patch :: rest => patch :: (firsts rest).filter (·.key ≠ patch.key)

variable {patches : List (Patch α ε)}

theorem firsts_append (patches more : List (Patch α ε)) :
    firsts (patches ++ more)
      = firsts patches
        ++ (firsts more).filter (·.key ∉ patches.map (·.key)) := by
  induction patches with
  | nil => simp [firsts]
  | cons patch rest ih =>
    rw [List.cons_append, firsts, ih, List.filter_append,
      List.filter_filter, firsts, List.cons_append]
    congr 2
    refine List.filter_congr fun _ _ => ?_
    simp [not_or]

theorem nodup_keys_firsts (patches : List (Patch α ε)) : ((firsts patches).map (·.key)).Nodup := by
  induction patches with
  | nil => exact .nil
  | cons patch rest ih =>
    rw [firsts, List.map_cons, List.nodup_cons]
    constructor
    · simp
    · exact ih.sublist (List.filter_sublist.map _)

/-- What is first has nothing with its key before it. -/
theorem exists_before_of_mem_firsts {patch : Patch α ε} (h : patch ∈ firsts patches) :
    ∃ before later, patches = before ++ patch :: later ∧ patch.key ∉ before.map (·.key) := by
  induction patches with
  | nil => cases h
  | cons first rest ih =>
    rw [firsts, List.mem_cons] at h
    rcases h with rfl | h
    · exact ⟨[], rest, rfl, List.not_mem_nil⟩
    · obtain ⟨hrest, hkey⟩ := List.mem_filter.1 h
      obtain ⟨before, later, rfl, hbefore⟩ := ih hrest
      refine ⟨first :: before, later, rfl, ?_⟩
      rw [List.map_cons, List.mem_cons, not_or]
      exact ⟨of_decide_eq_true hkey, hbefore⟩

end Patch

-- ==== calls

/-- A call on a queue. -/
inductive QueueCall (α ε : Type) where
  | enqueue (patch : Patch α ε)
  | apply (item : α)

namespace QueueCall

def patch? : QueueCall α ε → Option (Patch α ε)
  | .enqueue patch => some patch
  | .apply _ => none

/-- The patches that came with calls. -/
def patches (calls : List (QueueCall α ε)) : List (Patch α ε) := calls.filterMap patch?

/-- The calls up to the last one that ran patches. -/
def settled (calls : List (QueueCall α ε)) : List (QueueCall α ε) :=
  calls.rdropWhile (·.patch?.isSome)

/-- The calls since patches last ran. -/
def recent (calls : List (QueueCall α ε)) : List (QueueCall α ε) :=
  calls.rtakeWhile (·.patch?.isSome)

/-- The patches that came since patches last ran and whose key no call
had brought before. -/
def accepted (calls : List (QueueCall α ε)) : List (Patch α ε) :=
  (Patch.firsts (patches (recent calls))).filter (·.key ∉ (patches (settled calls)).map (·.key))

variable {calls : List (QueueCall α ε)}

theorem settled_append_recent (calls : List (QueueCall α ε)) :
    settled calls ++ recent calls = calls := List.rdropWhile_append_rtakeWhile ..

theorem firsts_patches (calls : List (QueueCall α ε)) :
    Patch.firsts (patches calls) = Patch.firsts (patches (settled calls)) ++ accepted calls := by
  conv_lhs => rw [← settled_append_recent calls]
  rw [patches, List.filterMap_append]
  exact Patch.firsts_append ..

theorem accepted_enqueue (calls : List (QueueCall α ε)) (patch : Patch α ε) :
    accepted (calls ++ [.enqueue patch])
      = accepted calls ++ [patch].filter
          (·.key ∉ (patches calls).map (·.key)) := by
  have hrecent : recent (calls ++ [.enqueue patch]) = recent calls ++ [.enqueue patch] :=
    List.rtakeWhile_concat_pos _ _ _ rfl
  have hsettled : settled (calls ++ [.enqueue patch]) = settled calls :=
    List.rdropWhile_concat_pos _ _ _ rfl
  have hpatches : patches calls = patches (settled calls) ++ patches (recent calls) := by
    conv_lhs => rw [← settled_append_recent calls]
    exact List.filterMap_append
  have hlast : patches (recent calls ++ [.enqueue patch])
      = patches (recent calls) ++ [patch] := List.filterMap_append
  rw [accepted, hrecent, hsettled, hlast, Patch.firsts_append,
    List.filter_append, List.filter_filter, hpatches]
  congr 1
  refine List.filter_congr fun _ _ => ?_
  simp [not_or]

end QueueCall

-- ==== queues

namespace PatchQueue

open QueueCall

section Enqueue

variable {queue : PatchQueue α ε} {patch : Patch α ε}

theorem isSome_enqueue? : (queue.enqueue? patch).isSome = true ↔ patch.key ∉ queue.taken := by
  rw [← contains_iff]
  unfold enqueue?
  split <;> simp [*]

/-- A patch for a new place is taken. -/
theorem enqueue_of_new (h : patch.key ∉ queue.taken) :
    (queue.enqueue patch).waiting = patch :: queue.waiting
      ∧ ∀ key, key ∈ (queue.enqueue patch).taken
        ↔ key = patch.key ∨ key ∈ queue.taken := by
  have hnew : ¬ queue.contains patch.key = true := by
    rw [contains_iff]
    exact h
  unfold enqueue enqueue?
  rw [dif_neg hnew]
  exact ⟨rfl, fun _ => PatchKey.mem_putInto⟩

theorem enqueue_of_known (h : patch.key ∈ queue.taken) : queue.enqueue patch = queue := by
  unfold enqueue enqueue?
  rw [dif_pos ((queue.contains_iff patch.key).2 h)]
  rfl

end Enqueue

/-- The queue behind a call. -/
def call (queue : PatchQueue α ε) : QueueCall α ε → PatchQueue α ε
  | .enqueue patch => queue.enqueue patch
  | .apply item => (queue.apply item).2.2

/-- A new queue behind some calls. -/
def after (calls : List (QueueCall α ε)) : PatchQueue α ε := calls.foldl call {}

/-- What runs during a call, in order. -/
def ranBy (queue : PatchQueue α ε) : QueueCall α ε → List (Patch α ε)
  | .enqueue _ => []
  | .apply _ => queue.schedule

/-- What runs during some calls, in order. -/
def ran (queue : PatchQueue α ε) : List (QueueCall α ε) → List (Patch α ε)
  | [] => []
  | call :: rest => queue.ranBy call ++ (queue.call call).ran rest

theorem ran_append (queue : PatchQueue α ε) (calls more : List (QueueCall α ε)) :
    queue.ran (calls ++ more) = queue.ran calls ++ (calls.foldl call queue).ran more := by
  induction calls generalizing queue with
  | nil => rfl
  | cons first rest ih =>
    rw [List.cons_append, ran, ih, ran, List.append_assoc, List.foldl_cons]

/-- What a queue knows and what waits in it after some calls. -/
theorem waiting_after (calls : List (QueueCall α ε)) :
    (after calls).waiting = (accepted calls).reverse
      ∧ ∀ key, key ∈ (after calls).taken
        ↔ key ∈ (patches calls).map (·.key) := by
  -- what was accepted is counted back from the last call
  induction calls using List.reverseRecOn with
  | nil => exact ⟨rfl, fun key => Iff.rfl⟩
  | append_singleton calls last ih =>
    obtain ⟨hwaiting, htaken⟩ := ih
    rw [after, List.foldl_concat, ← after, patches,
      List.filterMap_append, List.map_append, ← patches]
    cases last with
    | enqueue patch =>
      rw [accepted_enqueue, List.reverse_append, ← hwaiting]
      by_cases hknown : patch.key ∈ (after calls).taken
      · have hold := (htaken _).1 hknown
        have hdrop : [patch].filter (·.key ∉ (patches calls).map
            (·.key)) = [] := by simpa using hold
        rw [hdrop, call, enqueue_of_known hknown]
        refine ⟨rfl, fun key => ?_⟩
        rw [List.mem_append, ← htaken]
        refine (or_iff_left_of_imp fun hlast => ?_).symm
        rw [List.mem_singleton.1 hlast]
        exact hknown
      · obtain ⟨hwaits, hkeys⟩ := enqueue_of_new hknown
        have hnew := mt (htaken _).2 hknown
        have hkeep : [patch].filter (·.key ∉ (patches calls).map
            (·.key)) = [patch] := by simpa using hnew
        rw [hkeep, call]
        refine ⟨hwaits, fun key => ?_⟩
        rw [List.mem_append, ← htaken, or_comm]
        exact (hkeys key).trans (or_congr_left List.mem_singleton.symm)
    | apply item =>
      have haccepted : accepted (calls ++ [.apply item]) = [] := by
        rw [accepted, recent, List.rtakeWhile_concat_neg _ _ _ (by simp [patch?])]
        rfl
      rw [haccepted]
      refine ⟨rfl, fun key => ?_⟩
      rw [List.mem_append, ← htaken]
      exact (or_iff_left List.not_mem_nil).symm

/-- The keys of what was accepted are different. -/
theorem nodup_accepted (calls : List (QueueCall α ε)) :
    ((accepted calls).map (·.key)).Nodup :=
  (Patch.nodup_keys_firsts _).sublist (List.filter_sublist.map _)

/-- What runs is what was accepted, the highest key first. -/
theorem schedule_after (calls : List (QueueCall α ε)) :
    (after calls).schedule.Perm (accepted calls)
      ∧ PatchKey.Falling ((after calls).schedule.map (·.key)) := by
  have hperm : (after calls).schedule.Perm (accepted calls) := by
    refine (List.mergeSort_perm ..).trans ?_
    rw [(waiting_after calls).1]
    exact List.reverse_perm _
  have hsorted : (after calls).schedule.Pairwise fun a b =>
      (!a.key.below b.key) = true := by
    apply List.pairwise_mergeSort
    · simp only [Bool.not_eq_true', Bool.eq_false_iff, ne_eq, PatchKey.below_iff]
      omega
    · simp only [Bool.or_eq_true, Bool.not_eq_true', Bool.eq_false_iff, ne_eq, PatchKey.below_iff]
      omega
  have hnodup : (after calls).schedule.Pairwise (·.key ≠ ·.key) := List.pairwise_map.1
      ((hperm.map Patch.key).nodup_iff.2 (nodup_accepted calls))
  refine ⟨hperm, List.pairwise_map.2 ((hsorted.and hnodup).imp ?_)⟩
  rintro a b ⟨hle, hne⟩
  -- keys of one rank are the same
  have hrank := mt PatchKey.rank_inj hne
  rw [Bool.not_eq_true', Bool.eq_false_iff, ne_eq, PatchKey.below_iff] at hle
  rw [PatchKey.below_iff]
  omega

/-- Patches that run one behind the other have their effects in turn, and
their failures are collected on the way. -/
theorem runAll_eq (patches : List (Patch α ε)) (item : α) :
    runAll patches item = (patches.foldl Patch.effect item, Patch.failures patches item) := by
  induction patches generalizing item with
  | nil => rfl
  | cons patch rest ih =>
    have hfailures : Patch.failures (patch :: rest) item = (patch.failure? item).toList
          ++ Patch.failures rest (Patch.effect item patch) := by
      unfold Patch.failures
      rw [List.scanl_cons, List.zip_cons_cons, List.filterMap_cons]
      cases patch.failure? item <;> rfl
    rw [hfailures, List.foldl_cons, runAll]
    unfold Patch.effect Patch.failure?
    cases patch.run item with
    | ok changed => exact ih changed
    | error =>
      simp only [ih]
      rfl

/-- What ran is what came first for its key, up to the last call that ran
patches. -/
theorem ran_perm (calls : List (QueueCall α ε)) :
    (ran {} calls).Perm (Patch.firsts (patches (settled calls))) := by
  induction calls using List.reverseRecOn with
  | nil => exact .nil
  | append_singleton calls last ih =>
    rw [ran_append]
    cases last with
    | enqueue =>
      rw [settled, List.rdropWhile_concat_pos _ _ _ rfl, ← settled,
        ran, ranBy, ran, List.append_nil, List.append_nil]
      exact ih
    | apply item =>
      have hpatches : patches (calls ++ [.apply item]) = patches calls := by
        simp [patches, patch?]
      rw [settled, List.rdropWhile_concat_neg _ _ _ (by simp [patch?]),
        hpatches, firsts_patches, ran, ranBy, ran, List.append_nil]
      exact ih.append (schedule_after calls).1

/-- Over any calls on a new queue, a patch is taken exactly if its key
never came before. Applying runs what was taken since patches last ran,
from the highest key down, each patch on what those before it made of the
item. It answers how many ran, or the failures in the order they came, and
nothing is left to wait. So no key runs twice, and what runs for it is
what came with it first. -/
theorem first_patches_run_once (calls : List (QueueCall α ε)) :
    (∀ patch, ((after calls).enqueue? patch).isSome = true
        ↔ patch.key ∉ (patches calls).map (·.key))
      ∧ (after calls).schedule.Perm (accepted calls)
      ∧ PatchKey.Falling ((after calls).schedule.map (·.key))
      ∧ (∀ item, ((after calls).apply item).1
            = Patch.verdict (after calls).schedule item
          ∧ ((after calls).apply item).2.1
            = (after calls).schedule.foldl Patch.effect item
          ∧ ((after calls).apply item).2.2.size = 0)
      ∧ (ran {} calls).Perm (Patch.firsts (patches (settled calls)))
      ∧ ((ran {} calls).map (·.key)).Nodup
      ∧ ∀ patch ∈ ran {} calls, ∃ before later, patches calls = before ++ patch :: later
          ∧ patch.key ∉ before.map (·.key) := by
  obtain ⟨haccepted, hfalling⟩ := schedule_after calls
  have hperm := ran_perm calls
  refine ⟨fun patch => ?_, haccepted, hfalling, fun item => ?_, hperm, ?_, fun patch hpatch => ?_⟩
  · rw [isSome_enqueue?, (waiting_after calls).2]
  · have hcount : (after calls).size = (after calls).schedule.length :=
      (List.length_mergeSort _).symm
    unfold apply
    rw [runAll_eq, Patch.verdict, hcount]
    exact ⟨rfl, rfl, rfl⟩
  · exact (hperm.map Patch.key).nodup_iff.2 (Patch.nodup_keys_firsts _)
  · have hfirst : patch ∈ Patch.firsts (patches calls) := by
      rw [firsts_patches]
      exact List.mem_append_left _ (hperm.mem_iff.1 hpatch)
    exact Patch.exists_before_of_mem_firsts hfirst

end PatchQueue

end StackAsm
