/-
Walks along imports. A worklist queues every place once, so a walk visits
no place twice and ends after as many rounds as there are places
(`Worklist.rounds_visitAll`). Where each visit finds what a function of
the place says, the walk is known from that function alone
(`Worklist.Walks`): it starts with what was queued, and it visits what is
reached from there and nothing else.
-/
import Mathlib.Data.List.Nodup
import Mathlib.Logic.Function.Iterate
import StackAsm.Build.Compile

namespace StackAsm

namespace Worklist

variable {sources : SourceSet} {work : Worklist sources}
  {place : sources.Place} {rest : List sources.Place}

-- ==== offers

theorem offerAll_cons (work : Worklist sources) (place : sources.Place)
    (rest : List sources.Place) :
    work.offerAll (place :: rest) = (work.offer place).offerAll rest := rfl

/-- What offers add to a worklist: those of the places that are new, each
once. -/
theorem exists_offerAll (work : Worklist sources) (places : List sources.Place) :
    ∃ new, work.offerAll places
        = ⟨new.reverse ++ work.seen, work.queue ++ new⟩
      ∧ new.Nodup ∧ (∀ place ∈ new, place ∈ places ∧ place ∉ work.seen)
      ∧ ∀ place ∈ places, place ∈ work.seen ∨ place ∈ new := by
  induction places generalizing work with
  | nil =>
    refine ⟨[], ?_, List.nodup_nil, List.forall_mem_nil _, fun _ => nofun⟩
    rw [List.append_nil]
    rfl
  | cons place rest ih =>
    rw [offerAll_cons, offer]
    split
    · -- offered before, so nothing is added
      rename_i hold
      rw [List.contains_iff_mem] at hold
      obtain ⟨new, hoffer, hnodup, hnew, hall⟩ := ih work
      refine ⟨new, hoffer, hnodup, fun other hother =>
        ⟨.tail _ (hnew other hother).1, (hnew other hother).2⟩, ?_⟩
      rw [List.forall_mem_cons]
      exact ⟨.inl hold, hall⟩
    · rename_i hfresh
      rw [List.contains_iff_mem] at hfresh
      obtain ⟨new, hoffer, hnodup, hnew, hall⟩ := ih ⟨place :: work.seen, work.queue ++ [place]⟩
      refine ⟨place :: new, ?_, ?_, ?_, ?_⟩
      · rw [hoffer, List.reverse_cons, List.append_assoc, List.append_assoc]
        rfl
      · rw [List.nodup_cons]
        exact ⟨fun hmem => (hnew place hmem).2 (.head _), hnodup⟩
      · rw [List.forall_mem_cons]
        refine ⟨⟨.head _, hfresh⟩, fun other hother => ?_⟩
        exact ⟨.tail _ (hnew other hother).1, fun hseen =>
          (hnew other hother).2 (.tail _ hseen)⟩
      · rw [List.forall_mem_cons]
        refine ⟨.inr (.head _), fun other hother => ?_⟩
        rcases hall other hother with hseen | hmem
        · rcases List.mem_cons.1 hseen with rfl | hseen
          · exact .inr (.head _)
          · exact .inl hseen
        · exact .inr (.tail _ hmem)

/-- Offers are queued in order, each new place once. -/
theorem queue_offerAll (work : Worklist sources) (places : List sources.Place) :
    (work.offerAll places).queue = work.queue
      ++ (places.filter fun place => !work.seen.contains place).eraseDups := by
  induction places generalizing work with
  | nil => exact (List.append_nil _).symm
  | cons place rest ih =>
    rw [offerAll_cons, offer]
    split
    · rename_i hold
      rw [ih, List.filter_cons, hold]
      rfl
    · rename_i hfresh
      rw [Bool.not_eq_true] at hfresh
      rw [ih, List.filter_cons, hfresh]
      simp only [Bool.not_false, if_true, List.eraseDups_cons,
        List.filter_filter, List.contains_cons, Bool.not_or,
        List.append_assoc, List.singleton_append]

theorem queue_offerAll_empty (places : List sources.Place) :
    (offerAll {} places).queue = places.eraseDups := by
  rw [queue_offerAll]
  simp only [List.contains_nil, Bool.not_false, List.filter_true, List.nil_append]

-- ==== walks

/-- The places visited from a worklist on, in order, when `next` says what
each visit finds. -/
inductive Walks (next : sources.Place → List sources.Place) :
    Worklist sources → List sources.Place → Prop where
  | done {work : Worklist sources} (hqueue : work.queue = []) : Walks next work []
  | visit {work : Worklist sources} {place : sources.Place}
      {rest order : List sources.Place} (hqueue : work.queue = place :: rest)
      (hrest : Walks next (offerAll { work with queue := rest } (next place)) order) :
      Walks next work (place :: order)

namespace Walks

variable {next : sources.Place → List sources.Place} {order : List sources.Place}

/-- First come the places that are queued, then others, each once. -/
theorem exists_append (h : Walks next work order) :
    ∃ found, order = work.queue ++ found ∧ found.Nodup ∧ ∀ place ∈ found, place ∉ work.seen := by
  induction h with
  | done hqueue => exact ⟨[], by rw [hqueue]; rfl, List.nodup_nil, nofun⟩
  | @visit work place rest order hqueue hrest ih =>
    obtain ⟨new, hoffer, hnodup, hnew, -⟩ :=
      exists_offerAll { work with queue := rest } (next place)
    obtain ⟨found, horder, hfound, hunseen⟩ := ih
    rw [hoffer] at horder hunseen
    refine ⟨new ++ found, ?_, List.nodup_append.2 ⟨hnodup, hfound, ?_⟩,
      List.forall_mem_append.2 ⟨fun other h => (hnew other h).2, ?_⟩⟩
    · rw [horder, hqueue, List.append_assoc]
      rfl
    · rintro first hfirst _ hsecond rfl
      exact hunseen first hsecond (List.mem_append_left _ (List.mem_reverse.2 hfirst))
    · exact fun other hother hseen =>
        hunseen other hother (List.mem_append_right _ hseen)

/-- A walk visits no place twice. -/
theorem nodup (h : Walks next work order) (hqueue : work.queue.Nodup)
    (hseen : ∀ place ∈ work.queue, place ∈ work.seen) : order.Nodup := by
  obtain ⟨_, rfl, hfound, hnew⟩ := h.exists_append
  refine List.nodup_append.2 ⟨hqueue, hfound, ?_⟩
  rintro place hplace _ hother rfl
  exact hnew place hother (hseen place hplace)

/-- What a visited place leads to is visited or was seen before. -/
theorem closed (h : Walks next work order) :
    ∀ place ∈ order, ∀ target ∈ next place, target ∈ work.seen ∨ target ∈ order := by
  induction h with
  | done => exact nofun
  | @visit work place rest order hqueue hrest ih =>
    obtain ⟨new, hoffer, -, -, hall⟩ := exists_offerAll { work with queue := rest } (next place)
    obtain ⟨_, horder, -⟩ := hrest.exists_append
    rw [hoffer] at ih horder
    have hmem : ∀ target ∈ new, target ∈ order := by
      intro target htarget
      rw [horder]
      exact List.mem_append_left _ (List.mem_append_right _ htarget)
    rw [List.forall_mem_cons]
    constructor
    · intro target htarget
      rcases hall target htarget with hseen | hnew
      · exact .inl hseen
      · exact .inr (.tail _ (hmem target hnew))
    · intro other hother target htarget
      rcases ih other hother target htarget with hseen | hvisited
      · rcases List.mem_append.1 hseen with hnew | hseen
        · exact .inr (.tail _ (hmem target (List.mem_reverse.1 hnew)))
        · exact .inl hseen
      · exact .inr (.tail _ hvisited)

/-- A property that goes from what is queued along `next` holds of all
that is visited. -/
theorem forall_mem {P : sources.Place → Prop} (h : Walks next work order)
    (hqueue : ∀ place ∈ work.queue, P place)
    (hnext : ∀ place ∈ order, P place → ∀ target ∈ next place, P target) :
    ∀ place ∈ order, P place := by
  induction h with
  | done => exact nofun
  | @visit work place rest order hsplit hrest ih =>
    rw [hsplit, List.forall_mem_cons] at hqueue
    rw [List.forall_mem_cons] at hnext
    obtain ⟨_, hoffer, -, hnew, -⟩ := exists_offerAll { work with queue := rest } (next place)
    rw [List.forall_mem_cons]
    refine ⟨hqueue.1, ih ?_ hnext.2⟩
    rw [hoffer]
    refine List.forall_mem_append.2 ⟨hqueue.2, fun target htarget => ?_⟩
    exact hnext.1 hqueue.1 target (hnew target htarget).1

-- ------------------------------------------- from nothing but some offers

variable {places : List sources.Place}

theorem nodup_of_offers (h : Walks next (offerAll {} places) order) : order.Nodup := by
  obtain ⟨_, hoffer, hnodup, -⟩ := exists_offerAll ({} : Worklist sources) places
  rw [hoffer] at h
  refine h.nodup hnodup fun _ hplace => ?_
  exact List.mem_append_left _ (List.mem_reverse.2 hplace)

theorem mem_of_offered (h : Walks next (offerAll {} places) order)
    (hplace : place ∈ places) : place ∈ order := by
  obtain ⟨_, rfl, -⟩ := h.exists_append
  rw [queue_offerAll_empty]
  exact List.mem_append_left _ (List.mem_eraseDups.2 hplace)

theorem closed_of_offers (h : Walks next (offerAll {} places) order)
    {target : sources.Place} (hplace : place ∈ order)
    (htarget : target ∈ next place) : target ∈ order := by
  obtain ⟨_, hoffer, -, hnew, -⟩ := exists_offerAll ({} : Worklist sources) places
  rcases h.closed place hplace target htarget with hseen | hvisited
  · rw [hoffer, List.append_nil, List.mem_reverse] at hseen
    exact h.mem_of_offered (hnew target hseen).1
  · exact hvisited

/-- A property of what is offered that goes along `next` holds of all that
is visited. -/
theorem forall_mem_of_offers {P : sources.Place → Prop} (h : Walks next (offerAll {} places) order)
    (hplaces : ∀ place ∈ places, P place)
    (hnext : ∀ place ∈ order, P place → ∀ target ∈ next place, P target) :
    ∀ place ∈ order, P place := by
  refine h.forall_mem (fun place hplace => hplaces place ?_) hnext
  rw [queue_offerAll_empty] at hplace
  exact List.mem_eraseDups.1 hplace

/-- The order of offers has no influence on which places are visited. -/
theorem perm_of_offers {others order' : List sources.Place}
    (h : Walks next (offerAll {} places) order) (h' : Walks next (offerAll {} others) order')
    (hsame : ∀ place, place ∈ places ↔ place ∈ others) :
    order.Perm order' := by
  refine (List.perm_ext_iff_of_nodup h.nodup_of_offers h'.nodup_of_offers).2 fun place => ⟨?_, ?_⟩
  · refine h.forall_mem_of_offers (fun first hfirst => ?_)
      (fun _ _ hfirst _ htarget => h'.closed_of_offers hfirst htarget) place
    exact h'.mem_of_offered ((hsame first).1 hfirst)
  · refine h'.forall_mem_of_offers (fun first hfirst => ?_)
      (fun _ _ hfirst _ htarget => h.closed_of_offers hfirst htarget) place
    exact h.mem_of_offered ((hsame first).2 hfirst)

end Walks

/-- Taking the first place off the queue makes a worklist smaller,
whatever is offered then. -/
theorem size_offerAll_lt (hqueue : work.queue = place :: rest) (places : List sources.Place) :
    (offerAll { work with queue := rest } places).size < work.size := by
  refine Nat.lt_of_le_of_lt (size_offerAll_le places _) ?_
  unfold size
  rw [hqueue, List.length_cons]
  exact Nat.lt_succ_self _

/-- The places visited in so many rounds. -/
def visits (next : sources.Place → List sources.Place) : Nat → Worklist sources → List sources.Place
  | 0, _ => []
  | rounds + 1, work =>
    match work.queue with
    | [] => []
    | place :: rest =>
      place :: visits next rounds (offerAll { work with queue := rest } (next place))

/-- There is always a walk, and it has no more rounds than there are
places to visit. -/
theorem walks_visits (next : sources.Place → List sources.Place)
    {rounds : Nat} (h : work.size ≤ rounds) :
    Walks next work (visits next rounds work) := by
  induction rounds generalizing work with
  | zero =>
    refine .done (List.eq_nil_of_length_eq_zero ?_)
    unfold size at h
    omega
  | succ rounds ih =>
    cases hqueue : work.queue with
    | nil =>
      simp only [visits, hqueue]
      exact .done hqueue
    | cons place =>
      simp only [visits, hqueue]
      have hsmaller := size_offerAll_lt hqueue (next place)
      exact .visit hqueue (ih (by omega))

/-- After some offers there are no more places to visit than there are
places. -/
theorem size_offers_le (places : List sources.Place) :
    (offerAll {} places).size ≤ sources.places.length := by
  refine Nat.le_trans (size_offerAll_le _ _) ?_
  refine Nat.le_trans List.countP_le_length ?_
  exact Nat.le_of_eq List.length_attach

-- ==== rounds

theorem visitAll_eq_pure {m : Type → Type} [Monad m]
    (visit : sources.Place → m (List sources.Place))
    (h : work.queue = []) : visitAll visit work = pure () := by
  rw [visitAll]
  split
  · rfl
  · rename_i hmore
    rw [h] at hmore
    cases hmore

theorem visitAll_eq_bind {m : Type → Type} [Monad m]
    (visit : sources.Place → m (List sources.Place)) (h : work.queue = place :: rest) :
    visitAll visit work = visit place >>= fun found =>
      visitAll visit (offerAll { work with queue := rest } found) := by
  rw [visitAll]
  split
  · rename_i hnone
    rw [h] at hnone
    cases hnone
  · rename_i hmore
    rw [h] at hmore
    cases hmore
    rfl

variable {σ : Type}

/-- One round: the first place of the queue is visited, and what it leads
to is offered. With nothing queued nothing happens. -/
def round (visit : sources.Place → StateM σ (List sources.Place)) :
    Worklist sources × σ → Worklist sources × σ
  | (work, state) =>
    match work.queue with
    | [] => (work, state)
    | place :: rest =>
      let (found, state) := (visit place).run state
      (offerAll { work with queue := rest } found, state)

variable {visit : sources.Place → StateM σ (List sources.Place)} {state : σ}

theorem round_of_nil (h : work.queue = []) : round visit (work, state) = (work, state) := by
  unfold round
  simp only [h]

theorem round_of_cons (h : work.queue = place :: rest) :
    round visit (work, state)
      = (offerAll { work with queue := rest } ((visit place).run state).1,
        ((visit place).run state).2) := by
  unfold round
  simp only [h]
  rfl

theorem visitAll_of_nil (h : work.queue = []) : ((visitAll visit work).run state).2 = state := by
  rw [visitAll_eq_pure visit h]
  rfl

theorem visitAll_of_cons (h : work.queue = place :: rest) :
    (visitAll visit work).run state
      = (visitAll visit (offerAll { work with queue := rest }
          ((visit place).run state).1)).run ((visit place).run state).2 := by
  rw [visitAll_eq_bind visit h]
  rfl

/-- A walk is over after as many rounds as there are places to visit. -/
theorem rounds_visitAll {rounds : Nat} (h : work.size ≤ rounds) :
    ∃ seen, (round visit)^[rounds] (work, state)
      = (⟨seen, []⟩, ((visitAll visit work).run state).2) := by
  induction rounds generalizing work state with
  | zero =>
    have hnil : work.queue = [] := by
      refine List.eq_nil_of_length_eq_zero ?_
      unfold size at h
      omega
    refine ⟨work.seen, ?_⟩
    rw [visitAll_of_nil hnil, ← hnil]
    rfl
  | succ rounds ih =>
    rw [Function.iterate_succ_apply]
    cases hqueue : work.queue with
    | nil =>
      refine ⟨work.seen, ?_⟩
      rw [round_of_nil hqueue, Function.iterate_fixed (round_of_nil hqueue),
        visitAll_of_nil hqueue, ← hqueue]
    | cons place =>
      rw [round_of_cons hqueue, visitAll_of_cons hqueue]
      have hsmaller := size_offerAll_lt hqueue ((visit place).run state).1
      exact ih (by omega)

end Worklist

end StackAsm
