/-
Steps that may fail, taken apart. Readers and writers are programs over a
state that can stop with a fault. A sequence of steps ends well only if
every step of it did, each from the state the one before it left: the
lemmas here turn one successful run into the list of the runs it is made
of, which is what every proof about a reader or a writer starts from.
-/
import Mathlib.Data.List.Forall2

namespace StackAsm

variable {ε σ α β : Type}

/-- A sequence ends well exactly if both of its parts do. -/
theorem run_bind_ok_iff {x : EStateM ε σ α} {f : α → EStateM ε σ β} {s t : σ} {b : β} :
    (x >>= f).run s = .ok b t ↔ ∃ a u, x.run s = .ok a u ∧ (f a).run u = .ok b t := by
  rw [EStateM.run_bind]
  constructor
  · intro h
    cases hx : x.run s with
    | ok a u =>
      rw [hx] at h
      exact ⟨a, u, rfl, h⟩
    | error =>
      rw [hx] at h
      cases h
  · rintro ⟨a, u, hx, hf⟩
    rw [hx]
    exact hf

/-- An answer that needs no step leaves the state alone. -/
theorem run_pure_ok_iff {a b : α} {s t : σ} :
    (pure a : EStateM ε σ α).run s = .ok b t ↔ a = b ∧ s = t := by
  constructor
  · intro h
    injection h with ha hs
    exact ⟨ha, hs⟩
  · rintro ⟨rfl, rfl⟩
    rfl

/-- A step whose answer is only changed. -/
theorem run_bind_pure_ok_iff {x : EStateM ε σ α} {g : α → β} {s t : σ} {b : β} :
    (x >>= fun a => pure (g a)).run s = .ok b t ↔ ∃ a, x.run s = .ok a t ∧ g a = b := by
  rw [run_bind_ok_iff]
  constructor
  · rintro ⟨a, _, hx, h⟩
    obtain ⟨hb, rfl⟩ := run_pure_ok_iff.1 h
    exact ⟨a, hx, hb⟩
  · rintro ⟨a, hx, rfl⟩
    exact ⟨a, t, hx, run_pure_ok_iff.2 ⟨rfl, rfl⟩⟩

/-- A fault is never a success. -/
theorem run_throw_ok_iff {e : ε} {b : α} {s t : σ} :
    (throw e : EStateM ε σ α).run s = .ok b t ↔ False := by
  constructor
  · intro h
    cases h
  · exact False.elim

/-- A step behind one that ends well decides the sequence. -/
theorem run_bind_of_ok {x : EStateM ε σ α} {f : α → EStateM ε σ β}
    {s u : σ} {a : α} (hx : x.run s = .ok a u) :
    (x >>= f).run s = (f a).run u := by
  rw [EStateM.run_bind, hx]

/-- A step that fails decides the sequence. -/
theorem run_bind_of_error {x : EStateM ε σ α} {f : α → EStateM ε σ β}
    {s u : σ} {e : ε} (hx : x.run s = .error e u) :
    (x >>= f).run s = .error e u := by
  rw [EStateM.run_bind, hx]

/-- A sequence fails exactly if one of its parts does. -/
theorem run_bind_error_iff {x : EStateM ε σ α} {f : α → EStateM ε σ β} {s t : σ} {e : ε} :
    (x >>= f).run s = .error e t
      ↔ x.run s = .error e t
        ∨ ∃ a u, x.run s = .ok a u ∧ (f a).run u = .error e t := by
  rw [EStateM.run_bind]
  cases hx : x.run s with
  | ok a u =>
    constructor
    · intro h
      exact .inr ⟨a, u, rfl, h⟩
    · rintro (h | ⟨b, v, hb, h⟩)
      · cases h
      · cases hb
        exact h
  | error =>
    constructor
    · intro h
      cases h
      exact .inl rfl
    · rintro (h | ⟨b, v, hb, -⟩)
      · cases h
        rfl
      · cases hb

/-- The state in which a run ends, well or not. -/
def endState : EStateM.Result ε σ α → σ
  | .ok _ s => s
  | .error _ s => s

/-- A last step that leaves the state alone does not matter to it. -/
theorem endState_bind {x : EStateM ε σ α} {f : α → EStateM ε σ β} {s : σ}
    (hf : ∀ a u, endState ((f a).run u) = u) :
    endState ((x >>= f).run s) = endState (x.run s) := by
  rw [EStateM.run_bind]
  cases x.run s with
  | ok a u => exact hf a u
  | error => rfl

/-- Looking at the state hands it on. -/
theorem run_get_bind (f : σ → EStateM ε σ β) (s : σ) :
    ((get : EStateM ε σ σ) >>= f).run s = (f s).run s := rfl

/-- A change of the state never fails. -/
theorem run_modify_bind (change : σ → σ) (f : Unit → EStateM ε σ β) (s : σ) :
    ((modify change : EStateM ε σ PUnit) >>= f).run s = (f ()).run (change s) := rfl

-- ==== lists

/-- A step for each of no items does nothing. -/
theorem run_mapM_nil_ok_iff {f : α → EStateM ε σ β} {s t : σ} {bs : List β} :
    (([] : List α).mapM f).run s = .ok bs t ↔ [] = bs ∧ s = t := by
  rw [List.mapM_nil, run_pure_ok_iff]

/-- A step for each of several items, taken apart at the first. -/
theorem run_mapM_cons_ok_iff {f : α → EStateM ε σ β} {a : α} {l : List α} {s t : σ} {bs : List β} :
    ((a :: l).mapM f).run s = .ok bs t
      ↔ ∃ b u rest, (f a).run s = .ok b u
          ∧ (l.mapM f).run u = .ok rest t ∧ bs = b :: rest := by
  rw [List.mapM_cons, run_bind_ok_iff]
  constructor
  · rintro ⟨b, u, hb, h⟩
    obtain ⟨rest, hrest, rfl⟩ := run_bind_pure_ok_iff.1 h
    exact ⟨b, u, rest, hb, hrest, rfl⟩
  · rintro ⟨b, u, rest, hb, hrest, rfl⟩
    refine ⟨b, u, hb, ?_⟩
    rw [run_bind_of_ok hrest, EStateM.run_pure]

/-- Every item has its own answer, in order. -/
theorem forall₂_of_run_mapM {f : α → EStateM ε σ β} {l : List α}
    {s t : σ} {bs : List β} (h : (l.mapM f).run s = .ok bs t) :
    List.Forall₂ (fun a b => ∃ s t, (f a).run s = .ok b t) l bs := by
  induction l generalizing s bs with
  | nil =>
    obtain ⟨rfl, -⟩ := run_mapM_nil_ok_iff.1 h
    exact .nil
  | cons a l ih =>
    obtain ⟨_, u, _, hb, hrest, rfl⟩ := run_mapM_cons_ok_iff.1 h
    exact .cons ⟨s, u, hb⟩ (ih hrest)

-- ==== without state

/-- A sequence of steps without a state ends well exactly if both of its
parts do. -/
theorem bind_ok_iff {x : Except ε α} {f : α → Except ε β} {b : β} :
    (x >>= f) = .ok b ↔ ∃ a, x = .ok a ∧ f a = .ok b := by
  cases x with
  | ok => simp [bind, Except.bind]
  | error => simp [bind, Except.bind]

theorem pure_ok_iff {a b : α} : (pure a : Except ε α) = .ok b ↔ a = b := by
  show Except.ok a = .ok b ↔ a = b
  rw [Except.ok.injEq]

/-- A step that succeeds on each of several items. -/
theorem mapM_ok_of_forall {f : α → Except ε β} {g : α → β} {l : List α}
    (h : ∀ a ∈ l, f a = .ok (g a)) : l.mapM f = .ok (l.map g) := by
  induction l with
  | nil => rfl
  | cons a l ih =>
    rw [List.mapM_cons, h a (.head _), ih fun b hb => h b (.tail _ hb)]
    rfl

/-- A step without a state for each of several items: every item has its
own answer, in order. -/
theorem forall₂_of_mapM_ok {f : α → Except ε β} {l : List α} {bs : List β}
    (h : l.mapM f = .ok bs) : List.Forall₂ (f · = .ok ·) l bs := by
  induction l generalizing bs with
  | nil =>
    rw [List.mapM_nil, pure_ok_iff] at h
    subst h
    exact .nil
  | cons first l ih =>
    rw [List.mapM_cons, bind_ok_iff] at h
    obtain ⟨_, hb, h⟩ := h
    obtain ⟨_, hrest, h⟩ := bind_ok_iff.1 h
    rw [pure_ok_iff] at h
    subst h
    exact .cons hb (ih hrest)

-- ==== items and answers

section Forall₂

variable {γ : Type} {R : α → β → Prop} {as : List α} {bs : List β} (h : List.Forall₂ R as bs)

include h

theorem exists_of_forall₂ : (∀ a ∈ as, ∃ b ∈ bs, R a b) ∧ ∀ b ∈ bs, ∃ a ∈ as, R a b := by
  induction h with
  | nil => exact ⟨nofun, nofun⟩
  | cons hfirst _ ih =>
    simp only [List.mem_cons, forall_eq_or_imp, exists_eq_or_imp]
    exact ⟨⟨.inl hfirst, fun a ha => .inr (ih.1 a ha)⟩, .inl hfirst, fun b hb => .inr (ih.2 b hb)⟩

/-- What follows for each answer holds of all. -/
theorem forall_mem_of_forall₂ {P : β → Prop}
    (himp : ∀ a ∈ as, ∀ b, R a b → P b) : ∀ b ∈ bs, P b := by
  intro b hb
  obtain ⟨a, ha, hR⟩ := (exists_of_forall₂ h).2 b hb
  exact himp a ha b hR

/-- What is known of each answer is known of the answers together. -/
theorem map_eq_of_forall₂ {answer : β → γ} {expected : α → γ}
    (himp : ∀ a ∈ as, ∀ b, R a b → answer b = expected a) :
    bs.map answer = as.map expected := by
  induction h with
  | nil => rfl
  | cons hfirst _ ih =>
    rw [List.forall_mem_cons] at himp
    rw [List.map_cons, List.map_cons, himp.1 _ hfirst, ih himp.2]

end Forall₂

end StackAsm
