/-
Types as trees. A type is a node whose children are the types nested in
it; the functions that walk a program are written by recursion over a type
and over a list of types at once. The lemmas here turn the second half of
each into a `map` or a `flatMap` of the first, and give the one induction
that proofs about types use (`TypeDecl.nested_induction`).
-/
import Mathlib.Data.List.Nodup
import StackAsm.Program.Lines
import StackAsm.Program.Lookup

namespace StackAsm

/-- In a list without a repeated key, an item is found by its key. -/
theorem find?_of_nodup {α κ : Type} [BEq κ] [LawfulBEq κ] {key : α → κ}
    {items : List α} (hnodup : (items.map key).Nodup) {item : α} (hitem : item ∈ items) :
    (items.find? fun other => key other == key item) = some item := by
  induction items with
  | nil => cases hitem
  | cons first rest ih =>
    rw [List.map_cons, List.nodup_cons] at hnodup
    rw [List.find?_cons]
    rcases List.mem_cons.1 hitem with rfl | hitem
    · rw [beq_self_eq_true]
    · have hne : (key first == key item) = false := by
        rw [beq_eq_false_iff_ne]
        intro heq
        exact hnodup.1 (List.mem_map.2 ⟨item, hitem, heq.symm⟩)
      rw [hne]
      exact ih hnodup.2 hitem

/-- An item with a new key joins those without a repeated key. -/
theorem nodup_map_concat {α κ : Type} {key : α → κ} {items : List α}
    {item : α} (h : (items.map key).Nodup) (hnew : key item ∉ items.map key) :
    ((items ++ [item]).map key).Nodup := by
  rw [List.map_append, List.map_singleton, ← List.concat_eq_append]
  exact h.concat hnew

/-- Numbers counted in sixteen bits are not repeated as long as they do
not wrap. -/
theorem nodup_map_ofNat {count : Nat} (h : count ≤ UInt16.size) :
    ((List.range count).map UInt16.ofNat).Nodup := by
  refine List.Nodup.map_on ?_ List.nodup_range
  intro i hi j hj heq
  rw [List.mem_range] at hi hj
  have hnat := congrArg UInt16.toNat heq
  rwa [UInt16.toNat_ofNat_of_lt' (Nat.lt_of_lt_of_le hi h),
    UInt16.toNat_ofNat_of_lt' (Nat.lt_of_lt_of_le hj h)] at hnat

namespace TypeDecl

variable {type : TypeDecl}

theorem sizeOf_lt_of_mem_nested {inner : TypeDecl} (h : inner ∈ type.nested) :
    sizeOf inner < sizeOf type := by
  have hlist := List.sizeOf_lt_of_mem h
  obtain ⟨_, _, _, _, _, _⟩ := type
  rw [TypeDecl.mk.sizeOf_spec]
  simp only at hlist
  omega

/-- What holds of a type as soon as it holds of the types nested in it
holds of every type. -/
@[elab_as_elim]
theorem nested_induction {motive : TypeDecl → Prop}
    (step : ∀ type : TypeDecl, (∀ inner ∈ type.nested, motive inner) → motive type)
    (type : TypeDecl) : motive type :=
  step type fun inner _hinner => nested_induction step inner
termination_by sizeOf type
decreasing_by exact sizeOf_lt_of_mem_nested _hinner

-- ==== walks

theorem walkAll_eq (outer : String) (types : List TypeDecl) :
    walkAll outer types = types.flatMap (walk outer) := by
  induction types with
  | nil => rfl
  | cons type rest ih => rw [walkAll, ih, List.flatMap_cons]

/-- A walk visits a type and then the types nested in it. -/
theorem walk_eq (outer : String) (type : TypeDecl) :
    walk outer type = (Text.join outer type.name, type)
      :: type.nested.flatMap (walk (Text.join outer type.name)) := by
  obtain ⟨_, _, _, _, _, _⟩ := type
  rw [walk, walkAll_eq]

theorem self_mem_walk (outer : String) (type : TypeDecl) :
    (Text.join outer type.name, type) ∈ walk outer type := by
  rw [walk_eq]
  exact .head _

theorem mem_walk_of_nested {outer : String} {inner : TypeDecl}
    (hinner : inner ∈ type.nested) {entry : String × TypeDecl}
    (hentry : entry ∈ walk (Text.join outer type.name) inner) :
    entry ∈ walk outer type := by
  rw [walk_eq]
  exact .tail _ (List.mem_flatMap.2 ⟨inner, hinner, hentry⟩)

-- ==== height

mutual

/-- How many types lie on the longest way down, this one included. -/
def height : TypeDecl → Nat
  | ⟨_, _, _, _, nested, _⟩ => heightAll nested + 1

def heightAll : List TypeDecl → Nat
  | [] => 0
  | type :: rest => max (height type) (heightAll rest)

end

theorem heightAll_le_iff {types : List TypeDecl} {depth : Nat} :
    heightAll types ≤ depth ↔ ∀ type ∈ types, type.height ≤ depth := by
  induction types with
  | nil => simp [heightAll]
  | cons type rest ih =>
    rw [heightAll, Nat.max_le, ih, List.forall_mem_cons]

theorem height_le_succ_iff {depth : Nat} :
    type.height ≤ depth + 1 ↔ ∀ inner ∈ type.nested, inner.height ≤ depth := by
  obtain ⟨_, _, _, _, _, _⟩ := type
  rw [height, Nat.add_le_add_iff_right, heightAll_le_iff]

theorem height_pos (type : TypeDecl) : 0 < type.height := by
  obtain ⟨_, _, _, _, _, _⟩ := type
  exact Nat.succ_pos _

-- ==== members

/-- How many fields, methods and types a type has directly in it. -/
def memberCount (type : TypeDecl) : Nat :=
  type.fields.length + type.methods.length + type.nested.length

theorem mapAllMembers_eq (onField : Field → Field) (onMethod : Method → Method) (onLine : Nat → Nat)
    (types : List TypeDecl) :
    mapAllMembers onField onMethod onLine types
      = types.map (mapMembers onField onMethod onLine) := by
  induction types with
  | nil => rfl
  | cons type rest ih => rw [mapAllMembers, ih, List.map_cons]

theorem mapMembers_eq (onField : Field → Field)
    (onMethod : Method → Method) (onLine : Nat → Nat) (type : TypeDecl) :
    mapMembers onField onMethod onLine type
      = ⟨type.name, type.attrs, type.fields.map onField, type.methods.map onMethod,
        type.nested.map (mapMembers onField onMethod onLine),
        onLine type.line⟩ := by
  obtain ⟨_, _, _, _, _, _⟩ := type
  rw [mapMembers, mapAllMembers_eq]

/-- A type whose members do not change does not change. -/
theorem mapMembers_eq_self {onField : Field → Field}
    {onMethod : Method → Method} {onLine : Nat → Nat} (outer : String)
    (h : ∀ entry ∈ type.walk outer, (∀ field ∈ entry.2.fields, onField field = field)
        ∧ (∀ method ∈ entry.2.methods, onMethod method = method)
        ∧ onLine entry.2.line = entry.2.line) :
    type.mapMembers onField onMethod onLine = type := by
  induction type using nested_induction generalizing outer with
  | step type ih =>
    rw [walk_eq, List.forall_mem_cons] at h
    obtain ⟨⟨hfields, hmethods, hline⟩, hinner⟩ := h
    have hnested : ∀ inner ∈ type.nested, inner.mapMembers onField onMethod onLine = inner :=
      fun inner hmem => ih inner hmem _ fun entry hentry =>
        hinner entry (List.mem_flatMap.2 ⟨inner, hmem, hentry⟩)
    obtain ⟨_, _, _, _, _, _⟩ := type
    rw [mapMembers_eq, List.map_congr_left hfields,
      List.map_congr_left hmethods, List.map_congr_left hnested, hline,
      List.map_id', List.map_id', List.map_id']

theorem walk_mapMembers (onField : Field → Field)
    (onMethod : Method → Method) (onLine : Nat → Nat) (outer : String) (type : TypeDecl) :
    walk outer (type.mapMembers onField onMethod onLine) = (walk outer type).map fun entry =>
        (entry.1, entry.2.mapMembers onField onMethod onLine) := by
  induction type using nested_induction generalizing outer with
  | step type ih =>
    rw [walk_eq, walk_eq, List.map_cons, List.map_flatMap, mapMembers_eq, List.flatMap_map]
    exact congrArg (List.cons _) (List.flatMap_congr fun inner hinner => ih inner hinner _)

end TypeDecl

/-- The types of a program with other members. -/
theorem Program.types_mapMembers (onField : Field → Field)
    (onMethod : Method → Method) (onLine : Nat → Nat) (program : Program) :
    (program.mapMembers onField onMethod onLine).types = program.types.map fun entry =>
        (entry.1, entry.2.mapMembers onField onMethod onLine) := by
  unfold types mapMembers
  simp only [List.flatMap_map, List.map_flatMap, TypeDecl.walkAll_eq,
    TypeDecl.mapAllMembers_eq, TypeDecl.walk_mapMembers]

end StackAsm
