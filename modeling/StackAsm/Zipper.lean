/-
Lists opened at a place. Changes that come in order of place, as patches
do, then cost a step each and not a walk from the front.
-/

namespace StackAsm

/-- A list cut in two at a place. -/
structure Zipper (α : Type) where
  /-- What comes before the place, the nearest first. -/
  before : List α
  /-- What comes from the place on. -/
  after : List α
  place : Nat
  place_eq : place = before.length

namespace Zipper

variable {α : Type}

theorem length_before (α : Type) : 0 = ([] : List α).length := rfl

def ofList (items : List α) : Zipper α := ⟨[], items, 0, length_before α⟩

def toList (zipper : Zipper α) : List α := zipper.before.reverse ++ zipper.after

-- ==== moving

/-- One place forward; the end stays. -/
def next : Zipper α → Zipper α
  | ⟨before, item :: after, place, h⟩ => ⟨item :: before, after, place + 1, by simp [h]⟩
  | ⟨before, [], place, h⟩ => ⟨before, [], place, h⟩

/-- One place back; the front stays. -/
def prev : Zipper α → Zipper α
  | ⟨item :: before, after, place, h⟩ => ⟨before, item :: after, place - 1, by simp [h]⟩
  | ⟨[], after, place, h⟩ => ⟨[], after, place, h⟩

/-- Some places forward, but not past the end. -/
def forward : Nat → Zipper α → Zipper α
  | 0, zipper => zipper
  | count + 1, zipper => if zipper.after.isEmpty then zipper else forward count zipper.next

/-- Some places back. -/
def back : Nat → Zipper α → Zipper α
  | 0, zipper => zipper
  | count + 1, zipper => back count zipper.prev

/-- Go to a place, or to the end if there is no such place. -/
def moveTo (zipper : Zipper α) (place : Nat) : Zipper α :=
  if zipper.place ≤ place then zipper.forward (place - zipper.place)
  else zipper.back (zipper.place - place)

/-- Change what stands at the place. -/
def change? (zipper : Zipper α) (change : α → Option α) : Option (Zipper α) :=
  match zipper.after with
  | [] => none
  | item :: rest => (change item).map fun item => { zipper with after := item :: rest }

-- ==== the list

theorem toList_ofList (items : List α) : (ofList items).toList = items := rfl

theorem toList_next (zipper : Zipper α) : zipper.next.toList = zipper.toList := by
  obtain ⟨before, after, place, h⟩ := zipper
  cases after <;> simp [next, toList]

theorem toList_prev (zipper : Zipper α) : zipper.prev.toList = zipper.toList := by
  obtain ⟨before, after, place, h⟩ := zipper
  cases before <;> simp [prev, toList]

theorem place_le_length (zipper : Zipper α) : zipper.place ≤ zipper.toList.length := by
  simp [toList, zipper.place_eq]

theorem place_next (zipper : Zipper α) :
    zipper.next.place = min (zipper.place + 1) zipper.toList.length := by
  obtain ⟨before, after, place, h⟩ := zipper
  cases after <;> simp [next, toList, h]

theorem place_prev (zipper : Zipper α) : zipper.prev.place = zipper.place - 1 := by
  obtain ⟨before, after, place, h⟩ := zipper
  cases before <;> simp [prev, h]

theorem toList_forward (count : Nat) (zipper : Zipper α) :
    (zipper.forward count).toList = zipper.toList := by
  induction count generalizing zipper with
  | zero => rfl
  | succ count ih =>
    unfold forward
    split
    · rfl
    · rw [ih, toList_next]

theorem toList_back (count : Nat) (zipper : Zipper α) :
    (zipper.back count).toList = zipper.toList := by
  induction count generalizing zipper with
  | zero => rfl
  | succ count ih => rw [back, ih, toList_prev]

theorem place_forward (count : Nat) (zipper : Zipper α) :
    (zipper.forward count).place = min (zipper.place + count) zipper.toList.length := by
  induction count generalizing zipper with
  | zero => exact (Nat.min_eq_left zipper.place_le_length).symm
  | succ count ih =>
    have inside := zipper.place_le_length
    unfold forward
    split
    · rename_i ended
      have last : zipper.place = zipper.toList.length := by
        simp [toList, zipper.place_eq, List.isEmpty_iff.1 ended]
      omega
    · rw [ih, place_next, toList_next]
      omega

theorem place_back (count : Nat) (zipper : Zipper α) :
    (zipper.back count).place = zipper.place - count := by
  induction count generalizing zipper with
  | zero => rfl
  | succ count ih =>
    rw [back, ih, place_prev]
    omega

/-- Moving leaves the list as it is. -/
theorem toList_moveTo (zipper : Zipper α) (place : Nat) :
    (zipper.moveTo place).toList = zipper.toList := by
  unfold moveTo
  split
  · exact toList_forward ..
  · exact toList_back ..

theorem place_moveTo (zipper : Zipper α) (place : Nat) :
    (zipper.moveTo place).place = min place zipper.toList.length := by
  have inside := zipper.place_le_length
  unfold moveTo
  split
  · rw [place_forward]
    omega
  · rw [place_back]
    omega

/-- A change at a place is a change of that element of the list. -/
theorem toList_change?_moveTo (zipper : Zipper α) (place : Nat) (change : α → Option α) :
    ((zipper.moveTo place).change? change).map toList =
      (zipper.toList[place]?.bind change).map fun item => zipper.toList.set place item := by
  have here := zipper.place_moveTo place
  have same := zipper.toList_moveTo place
  generalize zipper.moveTo place = moved at here same
  rw [← same] at here ⊢
  obtain ⟨before, after, at', h⟩ := moved
  subst h
  cases after with
  | nil =>
    have past : (Zipper.mk before [] before.length rfl).toList.length ≤ place := by
      simp only [toList, List.append_nil, List.length_reverse] at here ⊢
      omega
    simp [change?, List.getElem?_eq_none past]
  | cons item rest =>
    have found : place = before.length := by
      simp only [toList, List.length_append, List.length_reverse, List.length_cons] at here
      omega
    subst found
    simp only [change?, toList, Option.map_map, Function.comp_def]
    rw [List.getElem?_append_right (by simp)]
    simp [List.set_append_right]

end Zipper

end StackAsm
