/-
Entries. Of the types that a walk lists, parsing and linking look at the
full name, the name and the methods only. The entries of a program keep
just these; a change of a type that was found is a change of one entry
(`changeType?_of_find?`), and a type that is added brings its entries
(`entries_addType`). Where a full name leads, a change under it is made
(`find?_selects`).
-/
import StackAsm.Proofs.Program.Names

namespace StackAsm

-- ==== entries

/-- What a walk lists of a type, its fields and nested types left out. -/
structure TypeEntry where
  /-- Full name of the type. -/
  full : String
  name : String
  methods : List Method

namespace TypeDecl

/-- The entries of a type and of the types nested in it. -/
def entries (outer : String) (type : TypeDecl) : List TypeEntry :=
  (walk outer type).map fun entry =>
    ⟨entry.1, entry.2.name, entry.2.methods⟩

theorem entries_eq (outer : String) (type : TypeDecl) :
    type.entries outer
      = ⟨Text.join outer type.name, type.name, type.methods⟩
        :: type.nested.flatMap (entries (Text.join outer type.name)) := by
  rw [entries, walk_eq, List.map_cons, List.map_flatMap]
  rfl

end TypeDecl

/-- The entries of a namespace. -/
def Namespace.entries (space : Namespace) : List TypeEntry :=
  space.types.flatMap (TypeDecl.entries space.name)

namespace Program

/-- The entries of every type. -/
def entries (program : Program) : List TypeEntry := program.namespaces.flatMap Namespace.entries

theorem entries_eq (program : Program) : program.entries = program.types.map fun entry =>
      ⟨entry.1, entry.2.name, entry.2.methods⟩ := by
  simp only [types, List.map_flatMap, TypeDecl.walkAll_eq]
  rfl

theorem methods_eq (program : Program) : program.methods = program.entries.flatMap fun entry =>
      entry.methods.map fun method => (entry.full, method) := by
  rw [entries_eq, List.flatMap_map]
  rfl

end Program

-- ==== changes

namespace TypeDecl

theorem changeFirst_cons {α : Type} (p : α → Bool) (change : α → α) (item : α) (rest : List α) :
    changeFirst p change (item :: rest)
      = if p item then change item :: rest else item :: changeFirst p change rest := rfl

/-- The first item that is found is the one that is changed. -/
theorem changeFirst_of_find? {α : Type} {p : α → Bool} {items : List α}
    {item : α} (h : items.find? p = some item) :
    ∃ front back, items = front ++ item :: back
      ∧ ∀ change : α → α, changeFirst p change items
        = front ++ change item :: back := by
  obtain ⟨hitem, front, back, rfl, hfront⟩ := List.find?_eq_some_iff_append.1 h
  refine ⟨front, back, rfl, ?_⟩
  intro change
  clear h
  induction front with
  | nil =>
    rw [List.nil_append, changeFirst_cons, if_pos hitem]
    rfl
  | cons first front ih =>
    obtain ⟨hfirst, hfront⟩ := List.forall_mem_cons.1 hfront
    rw [List.cons_append, changeFirst_cons, if_neg (by simpa using hfirst), ih hfront]
    rfl

/-- A change at a path changes one entry, as long as it keeps the name and
the nested types. -/
theorem entries_changeAtPath {outer : String} {path : List String}
    {types : List TypeDecl} {type : TypeDecl} {change : TypeDecl → TypeDecl}
    (h : atPath? path types = some type) (hname : (change type).name = type.name)
    (hnested : (change type).nested = type.nested) :
    ∃ front back, types.flatMap (entries outer)
        = front ++ ⟨Text.joinAll outer path, type.name, type.methods⟩ :: back
      ∧ (changeAtPath change path types).flatMap (entries outer)
        = front ++ ⟨Text.joinAll outer path, type.name,
          (change type).methods⟩ :: back := by
  fun_induction atPath? path types generalizing outer with
  | case1 => cases h
  | case2 name =>
    have hfound := List.find?_some h
    rw [beq_iff_eq] at hfound
    subst hfound
    obtain ⟨front, back, rfl, hchange⟩ := changeFirst_of_find? h
    refine ⟨front.flatMap (entries outer), type.nested.flatMap (entries (Text.join outer type.name))
        ++ back.flatMap (entries outer), ?_, ?_⟩
    · rw [List.flatMap_append, List.flatMap_cons, entries_eq outer type, List.cons_append]
      rfl
    · rw [changeAtPath, hchange change, List.flatMap_append,
        List.flatMap_cons, entries_eq outer (change type), hname, hnested, List.cons_append]
      rfl
  | case3 name rest types hrest ih =>
    obtain ⟨next, hfind, hnext⟩ := Option.bind_eq_some_iff.1 h
    have hfound := List.find?_some hfind
    rw [beq_iff_eq] at hfound
    subst hfound
    obtain ⟨front, back, rfl, hchange⟩ := changeFirst_of_find? hfind
    obtain ⟨left, right, hleft, hright⟩ := @ih next (Text.join outer next.name) hnext
    refine ⟨front.flatMap (entries outer)
        ++ ⟨Text.join outer next.name, next.name, next.methods⟩ :: left,
      right ++ back.flatMap (entries outer), ?_, ?_⟩
    · rw [List.flatMap_append, List.flatMap_cons, entries_eq outer next, hleft]
      simp only [List.append_assoc, List.cons_append]
      rfl
    · rw [changeAtPath.eq_3 _ _ _ _ hrest, hchange, List.flatMap_append, List.flatMap_cons,
        entries_eq outer, hright]
      simp only [List.append_assoc, List.cons_append]
      rfl

/-- The item that was changed is found where it was, if it still fits. -/
theorem find?_changeFirst {α : Type} {p : α → Bool} {items : List α} {item : α}
    (h : items.find? p = some item) {change : α → α} (hfits : p (change item) = true) :
    (changeFirst p change items).find? p = some (change item) := by
  induction items with
  | nil => cases h
  | cons first => cases hfirst : p first <;> simp_all [changeFirst_cons]

/-- A type that keeps its name is found at its path as it was changed. -/
theorem atPath?_changeAtPath {path : List String} {types : List TypeDecl} {type : TypeDecl}
    {change : TypeDecl → TypeDecl} (h : atPath? path types = some type)
    (hname : (change type).name = type.name) :
    atPath? path (changeAtPath change path types) = some (change type) := by
  fun_induction atPath? path types with
  | case1 => cases h
  | case2 =>
    have hfound := List.find?_some h
    exact find?_changeFirst h (by rwa [hname])
  | case3 name rest types hrest ih =>
    obtain ⟨next, hfind, hnext⟩ := Option.bind_eq_some_iff.1 h
    have hfound := List.find?_some hfind
    have hfirst := @find?_changeFirst _ _ _ _ hfind
      (fun type => { type with nested := changeAtPath change rest type.nested }) hfound
    rw [changeAtPath.eq_3 _ _ _ _ hrest, atPath?.eq_3 _ _ _ hrest, hfirst]
    exact ih next hnext

theorem length_changeFirst {α : Type} (p : α → Bool) (change : α → α) (items : List α) :
    (changeFirst p change items).length = items.length := by
  induction items with
  | nil => rfl
  | cons item rest ih =>
    rw [changeFirst_cons]
    split
    · rfl
    · rw [List.length_cons, List.length_cons, ih]

theorem length_changeAtPath (change : TypeDecl → TypeDecl)
    (path : List String) (types : List TypeDecl) :
    (changeAtPath change path types).length = types.length := by
  rcases path with _ | ⟨_, _ | _⟩
  · rfl
  · exact length_changeFirst ..
  · exact length_changeFirst ..

end TypeDecl

namespace Program

variable {full : String} {program : Program}

/-- The names of the namespaces and how many types each has. -/
def outline (program : Program) : List (String × Nat) :=
  program.namespaces.map fun space => (space.name, space.types.length)

theorem changeLast?_of_find?_none (change : TypeDecl → TypeDecl) {spaces : List Namespace}
    (h : ∀ space ∈ spaces, space.find? full = none) :
    changeLast? full change spaces = none := by
  induction spaces with
  | nil => rfl
  | cons space rest ih =>
    obtain ⟨hspace, hrest⟩ := List.forall_mem_cons.1 h
    rw [changeLast?, ih hrest]
    simp only
    split
    · rfl
    · rename_i path hpath
      rw [Namespace.find?, hpath, Option.bind_some] at hspace
      rw [hspace]
      rfl

/-- The change is made in the last namespace that leads to a type. -/
theorem changeLast?_append {path : List String} {type : TypeDecl}
    (change : TypeDecl → TypeDecl) (front : List Namespace)
    {space : Namespace} {back : List Namespace} (hpath : space.innerPath? full = some path)
    (htype : TypeDecl.atPath? path space.types = some type)
    (hback : ∀ later ∈ back, later.find? full = none) :
    changeLast? full change (front ++ space :: back) = some (front ++ { space with
        types := TypeDecl.changeAtPath change path space.types } :: back) := by
  induction front with
  | nil =>
    rw [List.nil_append, changeLast?, changeLast?_of_find?_none _ hback]
    simp only [hpath, htype]
    rfl
  | cons first front ih =>
    rw [List.cons_append, changeLast?, ih]
    rfl

/-- Changing the type that was found changes one entry, as long as the
change keeps the name and the nested types. -/
theorem changeType?_of_find? (hparts : ∀ entry ∈ program.types, Text.IsPart entry.2.name)
    {type : TypeDecl} {change : TypeDecl → TypeDecl} (h : program.find? full = some type)
    (hname : (change type).name = type.name) (hnested : (change type).nested = type.nested) :
    ∃ changed left right, program.changeType? full change = some changed
      ∧ program.entries
        = left ++ ⟨full, type.name, type.methods⟩ :: right
      ∧ changed.entries
        = left ++ ⟨full, type.name, (change type).methods⟩ :: right
      ∧ changed.outline = program.outline
      ∧ changed.externals = program.externals := by
  obtain ⟨front, space, back, hsplit, hspace, hback⟩ := exists_namespace_of_find? h
  obtain ⟨path, hpath, htype⟩ := Option.bind_eq_some_iff.1 hspace
  have hspaces : space ∈ program.namespaces := by
    rw [hsplit]
    exact List.mem_append_right _ (.head _)
  have hfull := joinAll_of_path hparts hspaces hpath htype
  obtain ⟨left, right, hleft, hright⟩ :=
    @TypeDecl.entries_changeAtPath space.name path space.types type change htype hname hnested
  rw [hfull] at hleft hright
  let changed : Namespace := { space with
    types := TypeDecl.changeAtPath change path space.types }
  refine ⟨{ program with namespaces := front ++ changed :: back },
    front.flatMap Namespace.entries ++ left,
    right ++ back.flatMap Namespace.entries, ?_, ?_, ?_, ?_, rfl⟩
  · rw [changeType?, hsplit, changeLast?_append change front hpath htype hback]
    rfl
  · rw [entries, hsplit, List.flatMap_append, List.flatMap_cons, Namespace.entries, hleft]
    simp only [List.append_assoc, List.cons_append]
  · rw [entries, List.flatMap_append, List.flatMap_cons, Namespace.entries, hright]
    simp only [List.append_assoc, List.cons_append]
  · simp only [outline, hsplit, List.map_append, List.map_cons, changed,
      TypeDecl.length_changeAtPath]

/-- A full name leads to the type that a change under this name changes, or
both lead nowhere. The changed type is found under the name, if it keeps its
own. Where no full name is there twice, a full name leads to the type that
a walk lists under it. -/
theorem find?_selects (program : Program) (full : String) :
    (program.find? full = none ∧ (∀ change, program.changeType? full change = none)
      ∨ ∃ front space back path type, program.find? full = some type
        ∧ program.namespaces = front ++ space :: back
        ∧ TypeDecl.atPath? path space.types = some type
        ∧ ∀ change, ∃ changed, program.changeType? full change = some changed
          ∧ changed = { program with namespaces := front ++ { space with
            types := TypeDecl.changeAtPath change path space.types } :: back }
          ∧ ((change type).name = type.name → changed.find? full = some (change type)))
      ∧ ((∀ entry ∈ program.types, Text.IsPart entry.2.name) →
        (program.types.map (·.1)).Nodup →
          ∀ type, program.find? full = some type ↔ (full, type) ∈ program.types) := by
  refine ⟨?_, fun hparts hnodup type => ⟨mem_types_of_find? hparts, find?_of_mem hparts hnodup⟩⟩
  cases hfind : program.find? full with
  | none =>
    refine .inl ⟨rfl, fun change => ?_⟩
    rw [changeType?, changeLast?_of_find?_none]
    · rfl
    · intro space hspace
      exact List.findSome?_eq_none_iff.1 hfind space (List.mem_reverse.2 hspace)
  | some type =>
    obtain ⟨front, space, back, hsplit, hspace, hback⟩ := exists_namespace_of_find? hfind
    obtain ⟨path, hpath, htype⟩ := Option.bind_eq_some_iff.1 hspace
    refine .inr ⟨front, space, back, path, type, rfl, hsplit, htype, fun change => ?_⟩
    refine ⟨_, ?_, rfl, fun hname => ?_⟩
    · rw [changeType?, hsplit, changeLast?_append change front hpath htype hback]
      rfl
    · have hlater : back.reverse.findSome? (·.find? full) = none :=
        List.findSome?_eq_none_iff.2 fun later hmem => hback later (List.mem_reverse.1 hmem)
      have hhere : Namespace.find? { space with
          types := TypeDecl.changeAtPath change path space.types } full = some (change type) := by
        show (space.innerPath? full).bind _ = _
        rw [hpath]
        exact TypeDecl.atPath?_changeAtPath htype hname
      simp only [find?, List.reverse_append, List.reverse_cons, List.findSome?_append, hlater,
        List.findSome?_singleton, hhere, Option.none_or, Option.some_or]

-- ==== additions

/-- A type joins the namespace of that name, or a new one at the end. -/
theorem addType_cases (program : Program) (name : String) (type : TypeDecl) :
    (∃ front space back, program.namespaces = front ++ space :: back
      ∧ space.name = name
      ∧ program.addType name type = { program with
        namespaces := front ++ { space with types := space.types ++ [type] } :: back })
    ∨ (∀ space ∈ program.namespaces, space.name ≠ name) ∧ program.addType name type = { program with
        namespaces := program.namespaces ++ [⟨name, [type]⟩] } := by
  unfold addType changeNamespace
  split
  · rename_i hany
    rw [← List.isSome_find?, Option.isSome_iff_exists] at hany
    obtain ⟨space, hfind⟩ := hany
    have hname := List.find?_some hfind
    rw [beq_iff_eq] at hname
    obtain ⟨front, back, hsplit, hchange⟩ := TypeDecl.changeFirst_of_find? hfind
    refine .inl ⟨front, space, back, hsplit, hname, ?_⟩
    rw [hchange]
  · rename_i hany
    refine .inr ⟨?_, rfl⟩
    intro space hspace hname
    exact hany (List.any_eq_true.2 ⟨space, hspace, beq_iff_eq.2 hname⟩)

/-- A type that is added brings its entries. -/
theorem entries_addType (program : Program) (name : String) (type : TypeDecl) :
    (program.addType name type).entries.Perm (type.entries name ++ program.entries) := by
  rcases addType_cases program name type with
    ⟨front, space, back, hsplit, rfl, hadd⟩ | ⟨-, hadd⟩
  · rw [hadd, entries, entries, hsplit]
    simp only [List.flatMap_append, List.flatMap_cons, List.flatMap_nil,
      Namespace.entries, List.append_nil, List.append_assoc]
    exact (List.perm_append_comm_assoc .. |>.append_left _).trans (List.perm_append_comm_assoc ..)
  · rw [hadd, entries, List.flatMap_append, List.flatMap_singleton,
      Namespace.entries, List.flatMap_singleton]
    exact List.perm_append_comm

theorem entries_addExternal (program : Program) (path : String) :
    (program.addExternal path).entries = program.entries := by
  unfold addExternal
  split <;> rfl

/-- Whether namespaces are named once, each with a type in it, and
external ones are named once too. -/
structure Listed (program : Program) : Prop where
  externals_nodup : program.externals.Nodup
  names_nodup : (program.outline.map (·.1)).Nodup
  sizes_ne_zero : ∀ space ∈ program.outline, space.2 ≠ 0

theorem Listed.of_outline {changed : Program} (h : program.Listed)
    (houtline : changed.outline = program.outline)
    (hexternals : changed.externals = program.externals) :
    changed.Listed where
  externals_nodup := hexternals ▸ h.externals_nodup
  names_nodup := houtline ▸ h.names_nodup
  sizes_ne_zero := houtline ▸ h.sizes_ne_zero

theorem Listed.addExternal (h : program.Listed) (path : String) :
    (program.addExternal path).Listed := by
  unfold Program.addExternal
  split
  · exact h
  · rename_i hnew
    rw [List.contains_eq_mem, decide_eq_true_iff] at hnew
    refine ⟨?_, h.names_nodup, h.sizes_ne_zero⟩
    rw [← List.concat_eq_append]
    exact h.externals_nodup.concat hnew

theorem Listed.addType (h : program.Listed) (name : String)
    (type : TypeDecl) : (program.addType name type).Listed := by
  obtain ⟨hexternals, hnames, hsizes⟩ := h
  rcases addType_cases program name type with
    ⟨front, space, back, hsplit, rfl, hadd⟩ | ⟨hnew, hadd⟩
  · rw [hadd]
    simp only [outline, hsplit, List.map_append, List.map_cons] at hnames hsizes
    rw [List.forall_mem_append, List.forall_mem_cons] at hsizes
    refine ⟨hexternals, ?_, ?_⟩
    · simp only [outline, List.map_append, List.map_cons]
      exact hnames
    · simp only [outline, List.map_append, List.map_cons]
      rw [List.forall_mem_append, List.forall_mem_cons]
      refine ⟨hsizes.1, ?_, hsizes.2.2⟩
      rw [List.length_append]
      exact Nat.succ_ne_zero _
  · rw [hadd]
    refine ⟨hexternals, ?_, ?_⟩
    · simp only [outline, List.map_append, List.map_cons, List.map_nil, List.map_map] at hnames ⊢
      rw [← List.concat_eq_append]
      refine hnames.concat ?_
      intro hmem
      obtain ⟨space, hspace, hname⟩ := List.mem_map.1 hmem
      exact hnew space hspace hname
    · simp only [outline, List.map_append, List.map_cons, List.map_nil]
      rw [List.forall_mem_append, List.forall_mem_singleton]
      exact ⟨hsizes, Nat.succ_ne_zero _⟩

end Program

end StackAsm
