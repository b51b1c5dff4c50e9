/-
Tables, for finding things by a key. A table made from a list of pairs
answers what searching the list would: of several pairs with one key the
first counts (`get?_ofList`, `get?_index`). A table of groups answers the
items with a key, in order (`group_groupBy`).
-/
import Std.Data.HashMap

namespace StackAsm

structure Table (κ υ : Type) [BEq κ] [Hashable κ] where
  map : Std.HashMap κ υ
deriving Repr

namespace Table

variable {κ υ α : Type} [BEq κ] [Hashable κ]

def get? (table : Table κ υ) (key : κ) : Option υ := table.map[key]?

/-- Put a pair into a table. -/
def insert (table : Table κ υ) (key : κ) (value : υ) : Table κ υ :=
  ⟨table.map.insert key value⟩

-- ==== from pairs

/-- The table of some pairs; the first pair of a key counts. -/
def ofList (pairs : List (κ × υ)) : Table κ υ :=
  pairs.foldr (fun pair table => table.insert pair.1 pair.2) ⟨{}⟩

theorem get?_insert [LawfulBEq κ] (table : Table κ υ) (key other : κ) (value : υ) :
    (table.insert key value).get? other = if other == key then some value else table.get? other := by
  unfold get? insert
  rw [Std.HashMap.getElem?_insert]
  by_cases same : key = other
  · subst same
    simp
  · have differs : ¬ other = key := fun h => same h.symm
    simp [same, differs]

theorem get?_ofList [LawfulBEq κ] (pairs : List (κ × υ)) (key : κ) :
    (ofList pairs).get? key = pairs.lookup key := by
  induction pairs with
  | nil => simp [ofList, get?]
  | cons pair rest ih =>
    unfold ofList at ih ⊢
    rw [List.foldr_cons, get?_insert, ih, List.lookup_cons]
    cases key == pair.1 <;> rfl

/-- The table of some items by a key of theirs; the first item with a key
counts. -/
def index (key : α → κ) (value : α → υ) (items : List α) : Table κ υ :=
  ofList (items.map fun item => (key item, value item))

theorem get?_index [LawfulBEq κ] (key : α → κ) (value : α → υ) (items : List α) (wanted : κ) :
    (index key value items).get? wanted =
      (items.find? fun item => key item == wanted).map value := by
  rw [index, get?_ofList]
  induction items with
  | nil => rfl
  | cons item rest ih =>
    rw [List.map_cons, List.lookup_cons, List.find?_cons, ih]
    by_cases same : wanted = key item
    · simp [same]
    · have differs : (key item == wanted) = false := by simpa using fun h => same h.symm
      have differs' : (wanted == key item) = false := by simpa using same
      simp [differs, differs']

-- ==== groups

/-- The items with a key. -/
def group (table : Table κ (List α)) (key : κ) : List α := (table.get? key).getD []

/-- The table of items by a key of theirs. -/
def groupBy (key : α → κ) (items : List α) : Table κ (List α) :=
  items.foldr (fun item table => table.insert (key item) (item :: table.group (key item))) ⟨{}⟩

theorem group_groupBy [LawfulBEq κ] (key : α → κ) (items : List α) (wanted : κ) :
    (groupBy key items).group wanted = items.filter fun item => key item == wanted := by
  induction items with
  | nil => simp [groupBy, group, get?]
  | cons item rest ih =>
    unfold groupBy at ih ⊢
    rw [List.foldr_cons, List.filter_cons]
    by_cases same : wanted = key item
    · subst same
      rw [← ih]
      simp [group, get?_insert]
    · have differs : ¬ key item = wanted := fun h => same h.symm
      rw [← ih]
      simp [group, get?_insert, same, differs]

end Table

end StackAsm
