/-
Full names. A type is found by its full name: the path of its namespace
and the names on the way down to it, dots between them. As long as every
name on the way is one part of a dotted name (`Text.IsPart`) the way can
be read off the full name again (`Program.joinAll_of_path`), and what a
walk lists under a name can be found under it (`Program.find?_ne_none`).
-/
import Mathlib.Data.List.Flatten
import StackAsm.Proofs.Program.Tree

namespace StackAsm

theorem sublist_flatMap_of_mem {α β : Type} {items : List α} {item : α}
    (f : α → List β) (h : item ∈ items) :
    (f item).Sublist (items.flatMap f) := by
  have hsublist := (List.singleton_sublist.2 h).flatMap f
  rwa [List.flatMap_singleton] at hsublist

-- ==== dotted names

namespace Text

variable {outer name : String} {path : List String}

/-- Whether a text can be one part of a dotted name. -/
def IsPart (name : String) : Prop := name ≠ "" ∧ '.' ∉ name.toList

/-- The full name of a path of names inside `outer`. -/
def joinAll (outer : String) (path : List String) : String := path.foldl join outer

theorem join_of_empty (name : String) : join "" name = name := rfl

theorem join_of_ne_empty (h : outer ≠ "") (name : String) :
    join outer name = outer ++ "." ++ name := by
  unfold join
  rw [if_neg (by rwa [String.isEmpty_iff])]

theorem join_ne_empty (outer : String) (h : name ≠ "") : join outer name ≠ "" := by
  by_cases houter : outer = ""
  · rw [houter, join_of_empty]
    exact h
  · rw [join_of_ne_empty houter]
    intro hempty
    have hlist := congrArg String.toList hempty
    simp at hlist

/-- A list behind whose first item there is no dot has no dot further on
to be cut at. -/
theorem eq_nil_of_dot_cut {more back back' : List Char}
    (hback : '.' ∉ back) (h : '.' :: back = more ++ '.' :: back') :
    more = [] ∧ back = back' := by
  cases more with
  | nil => exact ⟨rfl, (List.cons.inj h).2⟩
  | cons =>
    rw [List.cons_append, List.cons.injEq] at h
    rw [h.2] at hback
    exact absurd (List.mem_append_right _ (.head _)) hback

/-- The last part of a dotted name can be told apart from what stands in
front of it. -/
theorem join_inj {outer' name' : String} (houter : outer ≠ "")
    (houter' : outer' ≠ "") (hname : '.' ∉ name.toList)
    (hname' : '.' ∉ name'.toList) (h : join outer name = join outer' name') :
    outer = outer' ∧ name = name' := by
  have hlist := congrArg String.toList h
  rw [join_of_ne_empty houter, join_of_ne_empty houter'] at hlist
  simp only [String.toList_append, List.append_assoc] at hlist
  rcases List.append_eq_append_iff.1 hlist with ⟨more, hfront, hmore⟩
    | ⟨more, hfront, hmore⟩
  · obtain ⟨rfl, hback⟩ := eq_nil_of_dot_cut hname hmore
    rw [List.append_nil] at hfront
    exact ⟨String.toList_injective hfront.symm, String.toList_injective hback⟩
  · obtain ⟨rfl, hback⟩ := eq_nil_of_dot_cut hname' hmore
    rw [List.append_nil] at hfront
    exact ⟨String.toList_injective hfront, String.toList_injective hback.symm⟩

/-- Below a name that is not empty a path is set off by a dot. -/
theorem joinAll_of_ne_empty (houter : outer ≠ "") (hpath : path ≠ []) :
    joinAll outer path = outer ++ "." ++ ".".intercalate path := by
  induction path generalizing outer with
  | nil => exact absurd rfl hpath
  | cons name rest ih =>
    cases rest with
    | nil =>
      exact join_of_ne_empty houter name
    | cons next rest =>
      have hjoin : join outer name ≠ "" := by
        rw [join_of_ne_empty houter]
        intro hempty
        have hlist := congrArg String.toList hempty
        simp at hlist
      show joinAll (join outer name) (next :: rest) = _
      rw [ih hjoin (List.cons_ne_nil _ _), join_of_ne_empty houter, String.intercalate_cons_cons]
      simp only [String.append_assoc]

/-- At the top a path is its names with dots between them. -/
theorem joinAll_of_empty (hpath : path ≠ []) (hparts : ∀ name ∈ path, name ≠ "") :
    joinAll "" path = ".".intercalate path := by
  cases path with
  | nil => exact absurd rfl hpath
  | cons name rest =>
    show joinAll (join "" name) rest = _
    rw [join_of_empty]
    cases rest with
    | nil =>
      rfl
    | cons =>
      rw [joinAll_of_ne_empty (hparts name (.head _))
        (List.cons_ne_nil _ _), String.intercalate_cons_cons]

theorem intercalate_ne_empty (hpath : path ≠ [])
    (hparts : ∀ name ∈ path, name ≠ "") : ".".intercalate path ≠ "" := by
  cases path with
  | nil => exact absurd rfl hpath
  | cons name rest =>
    cases rest with
    | nil =>
      exact hparts name (.head _)
    | cons =>
      intro hempty
      have hlist := congrArg String.toList hempty
      simp at hlist

/-- The parts of a dotted name, with dots between them, are the name. -/
theorem intercalate_dottedParts (name : String) : ".".intercalate (dottedParts name) = name := by
  apply String.toList_injective
  rw [String.toList_intercalate, dottedParts, List.map_map]
  have hid : (String.toList ∘ String.ofList) = id := by
    funext text
    exact String.toList_ofList
  rw [hid, List.map_id]
  exact List.intercalate_splitOn '.'

theorem dottedParts_ne_nil (name : String) : dottedParts name ≠ [] := by
  intro h
  rw [dottedParts, List.map_eq_nil_iff] at h
  exact List.splitOn_ne_nil _ _ h

/-- Names without dots are the parts of the dotted name they make. -/
theorem dottedParts_intercalate (hpath : path ≠ []) (hparts : ∀ name ∈ path, '.' ∉ name.toList) :
    dottedParts (".".intercalate path) = path := by
  have hsplit : (['.'].intercalate (path.map String.toList)).splitOn '.'
      = path.map String.toList := by
    apply List.splitOn_intercalate
    · intro text htext
      obtain ⟨name, hname, rfl⟩ := List.mem_map.1 htext
      exact hparts name hname
    · rwa [Ne, List.map_eq_nil_iff]
  have hid : (String.ofList ∘ String.toList) = id := by
    funext text
    exact String.ofList_toList
  rw [dottedParts, String.toList_intercalate]
  change ((['.'].intercalate (path.map String.toList)).splitOn '.').map _ = _
  rw [hsplit, List.map_map, hid, List.map_id]

/-- What stands within a name behind a dot. -/
theorem within?_append (outer name : String) :
    within? outer (outer ++ "." ++ name) = some name := by
  have hlist : (outer ++ "." ++ name).toList = outer.toList ++ ['.'] ++ name.toList := by
    rw [String.toList_append, String.toList_append]
    rfl
  unfold within?
  rw [hlist, if_pos (List.isPrefixOf_iff_prefix.2 ⟨_, rfl⟩), List.drop_left, String.ofList_toList]

theorem eq_of_within? {inner : String} (h : within? outer name = some inner) :
    name = outer ++ "." ++ inner := by
  unfold within? at h
  simp only at h
  split at h
  · rename_i hprefix
    obtain ⟨_, hrest⟩ := List.isPrefixOf_iff_prefix.1 hprefix
    rw [← hrest, List.drop_left, Option.some.injEq] at h
    apply String.toList_injective
    subst h
    have hdot : ".".toList = ['.'] := rfl
    rw [← hrest, String.toList_append, String.toList_append, hdot, String.toList_ofList]
  · cases h

end Text

-- ==== namespaces

namespace Namespace

/-- A way down from a namespace is read off the full name it leads to. -/
theorem innerPath?_joinAll (space : Namespace) {path : List String}
    (hpath : path ≠ []) (hparts : ∀ name ∈ path, Text.IsPart name) :
    space.innerPath? (Text.joinAll space.name path) = some path := by
  have hdots := Text.dottedParts_intercalate hpath fun name hname => (hparts name hname).2
  unfold innerPath?
  split
  · rename_i hempty
    rw [String.isEmpty_iff] at hempty
    rw [hempty, Text.joinAll_of_empty hpath fun name hname => (hparts name hname).1]
    exact congrArg some hdots
  · rename_i hne
    rw [String.isEmpty_iff] at hne
    rw [Text.joinAll_of_ne_empty hne hpath, Text.within?_append]
    exact congrArg some hdots

/-- The way that a full name gives leads to that name. -/
theorem joinAll_of_innerPath? {space : Namespace} {full : String}
    {path : List String} (h : space.innerPath? full = some path)
    (hparts : ∀ name ∈ path, name ≠ "") :
    Text.joinAll space.name path = full := by
  unfold innerPath? at h
  split at h
  · rename_i hempty
    rw [String.isEmpty_iff] at hempty
    cases h
    rw [hempty, Text.joinAll_of_empty (Text.dottedParts_ne_nil full) hparts,
      Text.intercalate_dottedParts]
  · rename_i hne
    rw [String.isEmpty_iff] at hne
    obtain ⟨inner, hinner, rfl⟩ := Option.map_eq_some_iff.1 h
    rw [Text.joinAll_of_ne_empty hne (Text.dottedParts_ne_nil inner),
      Text.intercalate_dottedParts, Text.eq_of_within? hinner]

end Namespace

-- ==== paths

namespace TypeDecl

variable {outer : String} {path : List String} {types : List TypeDecl}
  {type : TypeDecl} {entry : String × TypeDecl}

theorem mem_walkAll : entry ∈ walkAll outer types ↔ ∃ type ∈ types, entry ∈ walk outer type := by
  rw [walkAll_eq, List.mem_flatMap]

/-- The type at a path is listed under the name of the path, and every
name of the path is the name of a type. -/
theorem mem_walkAll_of_atPath? (h : atPath? path types = some type) :
    (Text.joinAll outer path, type) ∈ walkAll outer types
      ∧ ∀ name ∈ path, ∃ entry ∈ walkAll outer types,
        entry.2.name = name := by
  fun_induction atPath? path types generalizing outer with
  | case1 => cases h
  | case2 name types =>
    have hmem := List.mem_of_find?_eq_some h
    have hname := List.find?_some h
    rw [beq_iff_eq] at hname
    subst hname
    have hself : (Text.join outer type.name, type) ∈ walkAll outer types :=
      mem_walkAll.2 ⟨type, hmem, self_mem_walk outer type⟩
    refine ⟨hself, ?_⟩
    intro name hname
    rw [List.mem_singleton] at hname
    exact ⟨_, hself, hname.symm⟩
  | case3 name rest types hrest ih =>
    obtain ⟨next, hfind, hnext⟩ := Option.bind_eq_some_iff.1 h
    have hmem := List.mem_of_find?_eq_some hfind
    have hname := List.find?_some hfind
    rw [beq_iff_eq] at hname
    subst hname
    -- what is listed inside the first type of the path is listed here
    have hdown : ∀ entry ∈ walkAll (Text.join outer next.name) next.nested,
        entry ∈ walkAll outer types := by
      intro entry hentry
      obtain ⟨_, hinner, hentry⟩ := mem_walkAll.1 hentry
      exact mem_walkAll.2 ⟨next, hmem, mem_walk_of_nested hinner hentry⟩
    obtain ⟨hbelow, hnames⟩ := @ih next (Text.join outer next.name) hnext
    refine ⟨hdown _ hbelow, ?_⟩
    intro name hname
    rcases List.mem_cons.1 hname with rfl | hname
    · exact ⟨_, mem_walkAll.2 ⟨next, hmem, self_mem_walk outer next⟩, rfl⟩
    · obtain ⟨entry, hentry, hname⟩ := hnames name hname
      exact ⟨entry, hdown entry hentry, hname⟩

theorem walk_sublist_walkAll (outer : String) (h : type ∈ types) :
    (walk outer type).Sublist (walkAll outer types) := by
  rw [walkAll_eq]
  exact sublist_flatMap_of_mem _ h

/-- The full names of the outermost types come in order in a walk. -/
theorem sublist_walkAll (outer : String) (types : List TypeDecl) :
    (types.map fun type => Text.join outer type.name).Sublist
      ((walkAll outer types).map (·.1)) := by
  induction types with
  | nil => exact List.Sublist.refl _
  | cons type rest ih =>
    rw [walkAll, walk_eq, List.map_append, List.map_cons, List.map_cons, List.cons_append]
    exact (ih.trans (List.sublist_append_right ..)).cons_cons _

/-- Names that make distinct full names are distinct. -/
theorem nodup_names (h : ((walkAll outer types).map (·.1)).Nodup) : (types.map (·.name)).Nodup := by
  have hfull := (sublist_walkAll outer types).nodup h
  unfold List.Nodup at hfull ⊢
  rw [List.pairwise_map] at hfull ⊢
  apply hfull.imp
  intro first second hne hname
  exact hne (congrArg (Text.join outer) hname)

theorem atPath?_cons {name : String} (hpath : path ≠ []) :
    atPath? (name :: path) types = (types.find? (·.name == name)).bind fun type =>
        atPath? path type.nested := by
  cases path with
  | nil => exact absurd rfl hpath
  | cons => rfl

/-- A type that a walk lists is found at the path of its full name, if no
full name is repeated. -/
theorem atPath?_of_mem_walk (htype : type ∈ types)
    (hnodup : ((walkAll outer types).map (·.1)).Nodup) (hentry : entry ∈ walk outer type) :
    ∃ path, path ≠ [] ∧ entry.1 = Text.joinAll outer path
      ∧ (∀ name ∈ path, ∃ other ∈ walkAll outer types, other.2.name = name)
      ∧ atPath? path types = some entry.2 := by
  induction type using nested_induction generalizing outer types with
  | step type ih =>
    have hfind := find?_of_nodup (nodup_names hnodup) htype
    have hsublist := walk_sublist_walkAll outer htype
    have hself : ∃ other ∈ walkAll outer types, other.2.name = type.name :=
      ⟨_, hsublist.subset (self_mem_walk outer type), rfl⟩
    rw [walk_eq, ← walkAll_eq] at hentry hsublist
    rcases List.mem_cons.1 hentry with rfl | hentry
    · exact ⟨[type.name], List.cons_ne_nil _ _, rfl, List.forall_mem_singleton.2 hself, hfind⟩
    · have hbelow := (List.sublist_cons_self ..).trans hsublist
      obtain ⟨inner, hinner, hentry⟩ := mem_walkAll.1 hentry
      obtain ⟨path, hne, hfull, hnames, hpath⟩ :=
        ih inner hinner hinner ((hbelow.map _).nodup hnodup) hentry
      refine ⟨type.name :: path, List.cons_ne_nil _ _, hfull,
        List.forall_mem_cons.2 ⟨hself, fun name hname => ?_⟩, ?_⟩
      · obtain ⟨other, hother, hname⟩ := hnames name hname
        exact ⟨other, hbelow.subset hother, hname⟩
      · rw [atPath?_cons hne, hfind]
        exact hpath

/-- The full name of a type ends in its name. -/
theorem exists_around_of_mem_walk (h : entry ∈ walk outer type) :
    ∃ around, entry.1 = Text.join around entry.2.name := by
  induction type using nested_induction generalizing outer with
  | step type ih =>
    rw [walk_eq, List.mem_cons] at h
    rcases h with rfl | h
    · exact ⟨outer, rfl⟩
    · obtain ⟨inner, hinner, hentry⟩ := List.mem_flatMap.1 h
      exact ih inner hinner hentry

end TypeDecl

-- ==== programs

namespace Program

variable {program : Program} {full : String} {type : TypeDecl}

/-- A full name is found in the last namespace that leads to a type. -/
theorem exists_namespace_of_find? (h : program.find? full = some type) :
    ∃ front space back, program.namespaces = front ++ space :: back
      ∧ space.find? full = some type
      ∧ ∀ later ∈ back, later.find? full = none := by
  obtain ⟨front, space, back, hsplit, hspace, hfront⟩ := List.findSome?_eq_some_iff.1 h
  refine ⟨back.reverse, space, front.reverse, ?_, hspace, ?_⟩
  · have hreverse := congrArg List.reverse hsplit
    rw [List.reverse_reverse] at hreverse
    rw [hreverse]
    simp only [List.reverse_append, List.reverse_cons, List.append_assoc, List.singleton_append]
  · intro later hlater
    exact hfront later (List.mem_reverse.1 hlater)

/-- The path that a full name gives in a namespace, and at which there is
a type, leads to that full name. -/
theorem joinAll_of_path (hparts : ∀ entry ∈ program.types, Text.IsPart entry.2.name)
    {space : Namespace} (hspace : space ∈ program.namespaces)
    {path : List String} (hpath : space.innerPath? full = some path)
    (htype : TypeDecl.atPath? path space.types = some type) :
    Text.joinAll space.name path = full := by
  obtain ⟨-, hnames⟩ := @TypeDecl.mem_walkAll_of_atPath? space.name _ _ _ htype
  apply Namespace.joinAll_of_innerPath? hpath
  intro name hname
  obtain ⟨entry, hentry, rfl⟩ := hnames name hname
  exact (hparts entry (List.mem_flatMap.2 ⟨space, hspace, hentry⟩)).1

/-- What is listed under a full name can be found under it. -/
theorem find?_ne_none (hparts : ∀ entry ∈ program.types, Text.IsPart entry.2.name)
    (hnodup : (program.types.map (·.1)).Nodup) {entry : String × TypeDecl}
    (h : entry ∈ program.types) : program.find? entry.1 ≠ none := by
  obtain ⟨space, hspace, hentry⟩ := List.mem_flatMap.1 h
  obtain ⟨_, htype, hentry⟩ := TypeDecl.mem_walkAll.1 hentry
  have hsublist : (TypeDecl.walkAll space.name space.types).Sublist program.types :=
    sublist_flatMap_of_mem (fun space => TypeDecl.walkAll space.name space.types) hspace
  obtain ⟨_, hne, hfull, hnames, hpath⟩ :=
    TypeDecl.atPath?_of_mem_walk htype ((hsublist.map _).nodup hnodup) hentry
  have hinner := space.innerPath?_joinAll hne (by
    intro name hname
    obtain ⟨other, hother, rfl⟩ := hnames name hname
    exact hparts other (hsublist.subset hother))
  rw [← hfull] at hinner
  have hfound : space.find? entry.1 = some entry.2 := by
    rw [Namespace.find?, hinner]
    exact hpath
  intro hnone
  have hall := List.findSome?_eq_none_iff.1 hnone space (List.mem_reverse.2 hspace)
  rw [hfound] at hall
  cases hall

/-- What is found under a full name is listed under it. -/
theorem mem_types_of_find? (hparts : ∀ entry ∈ program.types, Text.IsPart entry.2.name)
    (h : program.find? full = some type) :
    (full, type) ∈ program.types := by
  obtain ⟨_, space, _, hsplit, hfound, -⟩ := exists_namespace_of_find? h
  have hspace : space ∈ program.namespaces := by
    rw [hsplit]
    exact List.mem_append_right _ (.head _)
  obtain ⟨_, hpath, htype⟩ := Option.bind_eq_some_iff.1 hfound
  obtain ⟨hmem, -⟩ := @TypeDecl.mem_walkAll_of_atPath? space.name _ _ _ htype
  rw [joinAll_of_path hparts hspace hpath htype] at hmem
  exact List.mem_flatMap.2 ⟨space, hspace, hmem⟩

/-- Each type is found under its own full name. -/
theorem find?_of_mem (hparts : ∀ entry ∈ program.types, Text.IsPart entry.2.name)
    (hnodup : (program.types.map (·.1)).Nodup) {entry : String × TypeDecl}
    (h : entry ∈ program.types) : program.find? entry.1 = some entry.2 := by
  cases hfind : program.find? entry.1 with
  | none => exact absurd hfind (find?_ne_none hparts hnodup h)
  | some =>
    have hfirst := find?_of_nodup hnodup h
    rw [find?_of_nodup hnodup (mem_types_of_find? hparts hfind)] at hfirst
    rw [← Option.some.inj hfirst]

end Program

end StackAsm
