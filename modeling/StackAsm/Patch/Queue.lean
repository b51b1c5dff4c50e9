/-
Deferred patches. A patch changes one place of a finished item, named by
a position and a slot there. A queue takes each place once in its life,
and runs its patches from the highest place down, so that a patch which
makes its item longer never moves a place still waiting.
-/

namespace StackAsm

/-- A position and a slot at that position. -/
structure PatchKey where
  position : UInt32
  slot : UInt16
deriving DecidableEq, Repr

namespace PatchKey

/-- Position first, then slot. -/
def below (a b : PatchKey) : Bool :=
  a.position < b.position || (a.position == b.position && a.slot < b.slot)

def display (key : PatchKey) : String :=
  toString key.position.toNat ++ "#" ++ toString key.slot.toNat

/-- The place of a key among all keys. -/
def rank (key : PatchKey) : Nat := key.position.toNat * UInt16.size + key.slot.toNat

theorem below_iff (a b : PatchKey) : a.below b = true ↔ a.rank < b.rank := by
  have slots := And.intro a.slot.toNat_lt b.slot.toNat_lt
  simp only [below, rank, UInt16.size, Bool.or_eq_true, Bool.and_eq_true, decide_eq_true_eq,
    beq_iff_eq, UInt32.lt_iff_toNat_lt, UInt16.lt_iff_toNat_lt, ← UInt32.toNat_inj]
  omega

theorem rank_inj {a b : PatchKey} (same : a.rank = b.rank) : a = b := by
  have slots := And.intro a.slot.toNat_lt b.slot.toNat_lt
  simp only [rank, UInt16.size] at same
  obtain ⟨position, slot⟩ := a
  obtain ⟨position', slot'⟩ := b
  simp only [mk.injEq, ← UInt32.toNat_inj, ← UInt16.toNat_inj]
  simp only at same slots
  omega

-- ==== falling lists

/-- Whether every key is above those that follow it. -/
def Falling (keys : List PatchKey) : Prop := keys.Pairwise fun above key => key.below above = true

theorem Falling.nil : Falling [] := List.Pairwise.nil

/-- Whether a falling list has a key; what lies below it is not looked
at. -/
def isIn (key : PatchKey) : List PatchKey → Bool
  | [] => false
  | top :: rest => top == key || (key.below top && key.isIn rest)

/-- Put a key into a falling list. -/
def putInto (key : PatchKey) : List PatchKey → List PatchKey
  | [] => [key]
  | top :: rest => if key.below top then top :: key.putInto rest else key :: top :: rest

theorem isIn_iff {key : PatchKey} {keys : List PatchKey} (falling : Falling keys) :
    key.isIn keys = true ↔ key ∈ keys := by
  induction keys with
  | nil => simp [isIn]
  | cons top rest ih =>
    obtain ⟨tops, rests⟩ := List.pairwise_cons.1 falling
    simp only [isIn, Bool.or_eq_true, Bool.and_eq_true, beq_iff_eq, ih rests, List.mem_cons]
    constructor
    · rintro (same | ⟨_, inner⟩)
      · exact Or.inl same.symm
      · exact Or.inr inner
    · rintro (same | inner)
      · exact Or.inl same.symm
      · exact Or.inr ⟨tops key inner, inner⟩

theorem mem_putInto {key other : PatchKey} {keys : List PatchKey} :
    other ∈ key.putInto keys ↔ other = key ∨ other ∈ keys := by
  induction keys with
  | nil => simp [putInto]
  | cons top rest ih =>
    unfold putInto
    split
    · rw [List.mem_cons, List.mem_cons, ih]
      exact or_left_comm
    · exact List.mem_cons

theorem falling_putInto {key : PatchKey} {keys : List PatchKey} (falling : Falling keys)
    (fresh : key ∉ keys) : Falling (key.putInto keys) := by
  induction keys with
  | nil => simp [putInto, Falling]
  | cons top rest ih =>
    obtain ⟨tops, rests⟩ := List.pairwise_cons.1 falling
    rw [List.mem_cons, not_or] at fresh
    unfold putInto
    split
    · rename_i under
      refine List.pairwise_cons.2 ⟨?_, ih rests fresh.2⟩
      intro other inside
      rcases mem_putInto.1 inside with same | inner
      · exact same ▸ under
      · exact tops other inner
    · rename_i notUnder
      have higher : top.below key = true := by
        rw [below_iff] at notUnder ⊢
        have differs : ¬ key.rank = top.rank := fun same => fresh.1 (rank_inj same)
        omega
      refine List.pairwise_cons.2 ⟨?_, falling⟩
      intro other inside
      rcases List.mem_cons.1 inside with same | inner
      · exact same ▸ higher
      · have lower := (below_iff _ _).1 (tops other inner)
        rw [below_iff] at higher ⊢
        omega

end PatchKey

/-- A change to make at `key`. -/
structure Patch (α ε : Type) where
  key : PatchKey
  run : α → Except ε α
  /-- What a run that fails makes of the item. -/
  onFailure : α → α := id

structure PatchQueue (α ε : Type) where
  /-- Waiting patches, the last to come first. -/
  waiting : List (Patch α ε) := []
  /-- Every key ever taken, the highest first. -/
  taken : List PatchKey := []
  falling : PatchKey.Falling taken := by exact PatchKey.Falling.nil

namespace PatchQueue

variable {α ε : Type}

def size (queue : PatchQueue α ε) : Nat := queue.waiting.length

def contains (queue : PatchQueue α ε) (key : PatchKey) : Bool := key.isIn queue.taken

theorem contains_iff (queue : PatchQueue α ε) (key : PatchKey) :
    queue.contains key = true ↔ key ∈ queue.taken :=
  PatchKey.isIn_iff queue.falling

/-- Take a patch whose key is new. -/
def enqueue? (queue : PatchQueue α ε) (patch : Patch α ε) : Option (PatchQueue α ε) :=
  if known : queue.contains patch.key then none
  else
    some
      { waiting := patch :: queue.waiting
        taken := patch.key.putInto queue.taken
        falling := PatchKey.falling_putInto queue.falling fun inside =>
          known ((queue.contains_iff patch.key).2 inside) }

/-- Take a patch; one whose key is not new is dropped. -/
def enqueue (queue : PatchQueue α ε) (patch : Patch α ε) : PatchQueue α ε :=
  (queue.enqueue? patch).getD queue

/-- Run patches in order, collecting the failures. -/
def runAll : List (Patch α ε) → α → α × List (PatchKey × ε)
  | [], item => (item, [])
  | patch :: rest, item =>
    match patch.run item with
    | .ok changed => runAll rest changed
    | .error failure =>
      let (final, failures) := runAll rest (patch.onFailure item)
      (final, (patch.key, failure) :: failures)

/-- The waiting patches in the order they run: highest key first. -/
def schedule (queue : PatchQueue α ε) : List (Patch α ε) :=
  queue.waiting.mergeSort fun a b => !a.key.below b.key

/-- Run every waiting patch. The answer is how many ran, or the failures
of those that failed; the others have had their effect either way. -/
def apply (queue : PatchQueue α ε) (item : α) :
    Except (List (PatchKey × ε)) Nat × α × PatchQueue α ε :=
  let (final, failures) := runAll queue.schedule item
  let verdict := if failures.isEmpty then .ok queue.size else .error failures
  (verdict, final, { queue with waiting := [] })

end PatchQueue

end StackAsm
