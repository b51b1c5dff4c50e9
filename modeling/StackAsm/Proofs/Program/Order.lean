/-
Programs up to order. What a program declares does not depend on the
order of its namespaces and of the types in them: the outermost types,
each with the path of its namespace, can be listed in any order
(`Program.spread`). A program that is read from several files joins what
each of them has (`Program.Joined`), and two programs are alike if they
differ in such orders only (`Program.Alike`).

Lookup is a matter of what is declared, so alike programs settle every
reference in the same way (`Alike.settle`).
-/
import StackAsm.Proofs.Program.Linking

namespace StackAsm

namespace Program

variable {program other first second joined : Program}

-- ==== listing

/-- The outermost types, each with the path of its namespace. -/
def spread (program : Program) : List (String × TypeDecl) := program.namespaces.flatMap fun space =>
    space.types.map fun type => (space.name, type)

theorem types_eq_spread (program : Program) : program.types = program.spread.flatMap fun entry =>
      TypeDecl.walk entry.1 entry.2 := by
  unfold types spread
  simp only [TypeDecl.walkAll_eq, List.flatMap_assoc, List.flatMap_map]

theorem entries_eq_spread (program : Program) :
    program.entries = program.spread.flatMap fun entry =>
      entry.2.entries entry.1 := by
  unfold entries spread Namespace.entries
  simp only [List.flatMap_assoc, List.flatMap_map]

theorem mem_spread {entry : String × TypeDecl} :
    entry ∈ program.spread ↔ ∃ space ∈ program.namespaces,
      space.name = entry.1 ∧ entry.2 ∈ space.types := by
  unfold spread
  rw [List.mem_flatMap]
  refine exists_congr fun _ => and_congr_right fun _ => ?_
  rw [List.mem_map]
  constructor
  · rintro ⟨_, htype, rfl⟩
    exact ⟨rfl, htype⟩
  · rintro ⟨hname, htype⟩
    exact ⟨entry.2, htype, Prod.ext hname rfl⟩

theorem spread_addType (program : Program) (name : String) (type : TypeDecl) :
    (program.addType name type).spread.Perm (program.spread ++ [(name, type)]) := by
  rcases addType_cases program name type with
    ⟨front, space, back, hsplit, rfl, hadd⟩ | ⟨-, hadd⟩
  · rw [hadd, spread, spread, hsplit]
    simp only [List.flatMap_append, List.flatMap_cons, List.map_append,
      List.map_cons, List.map_nil, List.append_assoc]
    refine (List.Perm.append_left _ ?_).append_left _
    exact List.perm_append_comm
  · rw [hadd, spread, List.flatMap_append, List.flatMap_singleton]
    exact .refl _

theorem spread_addExternal (program : Program) (path : String) :
    (program.addExternal path).spread = program.spread := by
  unfold addExternal
  split <;> rfl

theorem mem_externals_addExternal {path wanted : String} :
    wanted ∈ (program.addExternal path).externals ↔ wanted ∈ program.externals ∨ wanted = path := by
  unfold addExternal
  split
  · rename_i hold
    rw [List.contains_eq_mem, decide_eq_true_iff] at hold
    refine ⟨.inl, ?_⟩
    rintro (h | rfl)
    · exact h
    · exact hold
  · rw [List.mem_append, List.mem_singleton]

theorem aliases_addType (program : Program) (name : String) (type : TypeDecl) :
    (program.addType name type).aliases = program.aliases := by
  unfold addType changeNamespace
  split <;> rfl

theorem externals_addType (program : Program) (name : String) (type : TypeDecl) :
    (program.addType name type).externals = program.externals := by
  unfold addType changeNamespace
  split <;> rfl

theorem aliases_addExternal (program : Program) (path : String) :
    (program.addExternal path).aliases = program.aliases := by
  unfold addExternal
  split <;> rfl

-- ==== names

/-- Nothing is found under a full name that no type has. -/
theorem find?_eq_none_of_not_mem (hsound : ∀ entry ∈ program.entries, entry.Sound) {full : String}
    (h : full ∉ program.entries.map (·.full)) :
    program.find? full = none := by
  cases hfind : program.find? full with
  | none => rfl
  | some =>
    have hmem := mem_types_of_find? (isPart_of_sound hsound) hfind
    exact absurd (List.mem_map.2 ⟨_, mem_entries hmem, rfl⟩) h

-- ==== joining

/-- Whether a program has what two others have together. -/
structure Joined (first second joined : Program) : Prop where
  spread : joined.spread.Perm (first.spread ++ second.spread)
  externals : ∀ path, path ∈ joined.externals ↔ path ∈ first.externals ∨ path ∈ second.externals
  aliases : joined.aliases = first.aliases ++ second.aliases

namespace Joined

theorem start (program : Program) : Joined program {} program where
  spread := by
    show program.spread.Perm (program.spread ++ [])
    rw [List.append_nil]
  externals path := by
    show _ ↔ _ ∨ path ∈ ([] : List String)
    simp only [List.not_mem_nil, or_false]
  aliases := (List.append_nil _).symm

theorem entries (h : Joined first second joined) :
    joined.entries.Perm (first.entries ++ second.entries) := by
  rw [entries_eq_spread, entries_eq_spread, entries_eq_spread, ← List.flatMap_append]
  exact h.spread.flatMap_right _

theorem addType (h : Joined first second joined) (name : String) (type : TypeDecl) :
    Joined first (second.addType name type) (joined.addType name type) where
  spread := by
    refine (spread_addType joined name type).trans ?_
    refine (h.spread.append_right _).trans ?_
    rw [List.append_assoc]
    exact (spread_addType second name type).symm.append_left _
  externals path := by
    rw [externals_addType, externals_addType]
    exact h.externals path
  aliases := by
    rw [aliases_addType, aliases_addType]
    exact h.aliases

theorem addExternal (h : Joined first second joined) (path : String) :
    Joined first (second.addExternal path) (joined.addExternal path) where
  spread := by
    rw [spread_addExternal, spread_addExternal]
    exact h.spread
  externals wanted := by
    rw [mem_externals_addExternal, mem_externals_addExternal, h.externals, or_assoc]
  aliases := by
    rw [aliases_addExternal, aliases_addExternal]
    exact h.aliases

end Joined

-- ==== alike

/-- Whether two programs differ in the order of declarations only. -/
structure Alike (program other : Program) : Prop where
  spread : program.spread.Perm other.spread
  externals : program.externals.Perm other.externals
  aliases : program.aliases.Perm other.aliases

namespace Alike

theorem symm (h : program.Alike other) : other.Alike program :=
  ⟨h.spread.symm, h.externals.symm, h.aliases.symm⟩

theorem types (h : program.Alike other) : program.types.Perm other.types := by
  rw [types_eq_spread, types_eq_spread]
  exact h.spread.flatMap_right _

theorem methods (h : program.Alike other) :
    program.methods.Perm other.methods := h.types.flatMap_right _

theorem references (h : program.Alike other) :
    program.references.Perm other.references := (h.aliases.map _).append (h.types.flatMap_right _)

end Alike

end Program

-- ==== lookup

theorem mem_insertNew {α : Type} [BEq α] [LawfulBEq α] {items : List α} {item wanted : α} :
    wanted ∈ insertNew items item ↔ wanted ∈ items ∨ wanted = item := by
  unfold insertNew
  split
  · rename_i hold
    rw [List.contains_iff_mem] at hold
    refine ⟨.inl, ?_⟩
    rintro (h | rfl)
    · exact h
    · exact hold
  · rw [List.mem_append, List.mem_singleton]

theorem mem_foldl_insertNew {α : Type} [BEq α] [LawfulBEq α] {items known : List α} {wanted : α} :
    wanted ∈ items.foldl insertNew known ↔ wanted ∈ known ∨ wanted ∈ items := by
  induction items generalizing known with
  | nil => simp
  | cons item rest ih =>
    rw [List.foldl_cons, ih, mem_insertNew, List.mem_cons, or_assoc]

/-- The full names of that kind that a type declares, types nested in it
left out. -/
def TypeDecl.declaredNames (kind : ReferenceKind) (full : String) (type : TypeDecl) : List String :=
  match kind with
  | .type => [full]
  | .field => type.fields.map fun field => Text.join full field.name
  | .method => type.methods.map fun method => Text.join full method.name

namespace Declarations

variable {table other : Declarations} {kind : ReferenceKind} {name full : String}

theorem declares_add :
    ((table.addType full).declares kind name = true
        ↔ table.declares kind name = true ∨ kind = .type ∧ name = full)
      ∧ ((table.addField full).declares kind name = true
        ↔ table.declares kind name = true ∨ kind = .field ∧ name = full)
      ∧ ((table.addMethod full).declares kind name = true
        ↔ table.declares kind name = true ∨ kind = .method ∧ name = full) := by
  refine ⟨?_, ?_, ?_⟩ <;> cases kind <;>
    simp [declares, addType, addField, addMethod, mem_insertNew]

/-- What is added item by item is declared by one of the items. -/
theorem declares_foldl {α : Type} {new : α → Prop} (add : Declarations → α → Declarations)
    (hadd : ∀ table item, (add table item).declares kind name = true
      ↔ table.declares kind name = true ∨ new item) (items : List α) :
    (items.foldl add table).declares kind name = true
      ↔ table.declares kind name = true ∨ ∃ item ∈ items, new item := by
  induction items generalizing table with
  | nil => simp
  | cons item rest ih =>
    rw [List.foldl_cons, ih, hadd, or_assoc, List.exists_mem_cons_iff]

theorem declares_declare {type : TypeDecl} :
    (TypeDecl.declare table full type).declares kind name = true
      ↔ table.declares kind name = true
        ∨ name ∈ type.declaredNames kind full := by
  unfold TypeDecl.declare
  rw [declares_add.1, declares_foldl (fun table (method : Method) =>
      table.addMethod (Text.join full method.name))
      fun _ _ => declares_add.2.2,
    declares_foldl (fun table (field : Field) =>
      table.addField (Text.join full field.name))
      fun _ _ => declares_add.2.1]
  cases kind <;> simp [TypeDecl.declaredNames, @eq_comm _ name]

/-- What no item changes stays the same. -/
theorem foldl_keeps {α β : Type} {add : Declarations → α → Declarations}
    (f : Declarations → β) (h : ∀ table item, f (add table item) = f table)
    (items : List α) : f (items.foldl add table) = f table := by
  induction items generalizing table with
  | nil => rfl
  | cons item rest ih => exact ih.trans (h table item)

theorem externals_declare (table : Declarations) (entry : String × TypeDecl) :
    (TypeDecl.declare table entry.1 entry.2).externals = table.externals := by
  show (List.foldl _ (List.foldl _ table _) _).externals = _
  rw [foldl_keeps externals, foldl_keeps externals] <;> exact fun _ _ => rfl

theorem mem_externals_addExternals (paths : List String) :
    name ∈ (paths.foldl addExternal table).externals ↔ name ∈ table.externals ∨ name ∈ paths := by
  induction paths generalizing table with
  | nil => simp
  | cons path rest ih =>
    rw [List.foldl_cons, ih, List.mem_cons, ← or_assoc]
    exact or_congr_left mem_insertNew

/-- Lookup asks a table only what it declares and what is external. -/
theorem resolve_congr (hdeclares : table.declares = other.declares)
    (hexternal : table.isExternal = other.isExternal) (reference : PendingReference) :
    table.resolve reference = other.resolve reference := by
  have hnearest : table.nearest? = other.nearest? := by
    funext kind name paths
    unfold nearest?
    rw [hdeclares]
  have hown : table.ownMember? = other.ownMember? := by
    funext kind name scope
    unfold ownMember?
    rw [hnearest]
  have hqualified : table.resolveQualified = other.resolveQualified := by
    funext kind name scope
    unfold resolveQualified imported external?
    rw [hnearest, hdeclares, hexternal]
  unfold resolve
  rw [hown, hqualified]

end Declarations

namespace Program

variable {program other : Program} {name : String}

theorem declares_declarations {kind : ReferenceKind} :
    program.declarations.declares kind name = true
      ↔ ∃ entry ∈ program.types,
        name ∈ entry.2.declaredNames kind entry.1 := by
  unfold declarations
  rw [Declarations.foldl_keeps (·.declares kind name) fun _ _ => by cases kind <;> rfl,
    Declarations.declares_foldl (fun table (entry : String × TypeDecl) =>
      TypeDecl.declare table entry.1 entry.2)
      fun _ _ => Declarations.declares_declare]
  have hempty : Declarations.declares {} kind name = false := by
    cases kind <;> rfl
  rw [hempty]
  simp only [Bool.false_eq_true, false_or]

theorem mem_externals_declarations {path : String} :
    path ∈ program.declarations.externals ↔ path ∈ program.externals := by
  unfold declarations
  rw [Declarations.mem_externals_addExternals,
    Declarations.foldl_keeps _ Declarations.externals_declare]
  simp only [List.not_mem_nil, false_or]

namespace Alike

theorem settle (h : program.Alike other) :
    program.declarations.settle = other.declarations.settle := by
  have hdeclares : program.declarations.declares = other.declarations.declares := by
    funext kind name
    rw [Bool.eq_iff_iff, declares_declarations, declares_declarations]
    exact exists_congr fun _ => and_congr_left fun _ => h.types.mem_iff
  have hexternal : program.declarations.isExternal = other.declarations.isExternal := by
    funext name
    rw [Bool.eq_iff_iff]
    unfold Declarations.isExternal
    rw [List.any_eq_true, List.any_eq_true]
    refine exists_congr fun _ => and_congr_left fun _ => ?_
    rw [mem_externals_declarations, mem_externals_declarations]
    exact h.externals.mem_iff
  funext reference
  cases reference with
  | resolved => rfl
  | pending =>
    unfold Declarations.settle
    simp only
    rw [Declarations.resolve_congr hdeclares hexternal]

end Alike

-- ==== mapping

theorem spread_mapReferences (f : Reference → Reference) (program : Program) :
    (program.mapReferences f).spread = program.spread.map fun entry =>
        (entry.1, entry.2.mapReferences f) := by
  unfold spread mapReferences
  simp only [List.flatMap_map, List.map_flatMap,
    TypeDecl.mapAllReferences_eq, List.map_map, Function.comp_def]

theorem methods_mapReferences (f : Reference → Reference) (program : Program) :
    (program.mapReferences f).methods = program.methods.map fun entry =>
        (entry.1, entry.2.mapReferences f) := by
  rw [methods_eq, methods_eq, entries_mapReferences, List.flatMap_map, List.map_flatMap]
  refine List.flatMap_congr fun entry _ => ?_
  show (entry.methods.map _).map _ = (entry.methods.map _).map _
  rw [List.map_map, List.map_map]
  rfl

theorem Alike.mapReferences (h : program.Alike other) (f : Reference → Reference) :
    (program.mapReferences f).Alike (other.mapReferences f) where
  spread := by
    rw [spread_mapReferences, spread_mapReferences]
    exact h.spread.map _
  externals := h.externals
  aliases := h.aliases.map _

-- ==== namespaces

/-- Whether two programs have the same namespaces with the same types,
externals and aliases. Namespaces, and types in a namespace, may stand in
another order; all that a type has is the same. -/
structure Reorders (program other : Program) : Prop where
  namespaces : ∃ spaces : List Namespace, spaces.Perm other.namespaces
    ∧ List.Forall₂ (fun space moved => space.name = moved.name
        ∧ space.types.Perm moved.types) program.namespaces spaces
  externals : program.externals.Perm other.externals
  aliases : program.aliases.Perm other.aliases

/-- The outermost types of the namespace with that path. -/
def typesIn (program : Program) (name : String) : List TypeDecl :=
  (program.spread.filter fun entry => entry.1 == name).map (·.2)

theorem names_eq_outline (program : Program) :
    program.namespaces.map (·.name) = program.outline.map (·.1) := by
  unfold outline
  rw [List.map_map]
  rfl

/-- A namespace is the list of the types under its path. -/
theorem typesIn_of_mem (h : (program.namespaces.map (·.name)).Nodup)
    {space : Namespace} (hspace : space ∈ program.namespaces) :
    program.typesIn space.name = space.types := by
  unfold typesIn spread
  obtain ⟨front, back, hsplit⟩ := List.append_of_mem hspace
  rw [hsplit] at h ⊢
  rw [List.map_append, List.map_cons, List.nodup_middle, ← List.map_append, List.nodup_cons] at h
  have hother : ∀ spaces : List Namespace, (∀ other ∈ spaces, other.name ≠ space.name) →
      (spaces.flatMap fun other =>
          other.types.map fun type => (other.name, type)).filter
        (fun entry => entry.1 == space.name) = [] := by
    intro spaces hspaces
    rw [List.filter_eq_nil_iff]
    intro entry hentry
    obtain ⟨other, hother, hentry⟩ := List.mem_flatMap.1 hentry
    obtain ⟨type, -, rfl⟩ := List.mem_map.1 hentry
    rw [beq_iff_eq]
    exact hspaces other hother
  have hnew : ∀ other ∈ front ++ back, other.name ≠ space.name :=
    fun other hmem heq => h.1 (List.mem_map.2 ⟨other, hmem, heq⟩)
  rw [List.forall_mem_append] at hnew
  rw [List.flatMap_append, List.flatMap_cons, List.filter_append,
    List.filter_append, hother front hnew.1, hother back hnew.2,
    List.append_nil, List.nil_append, List.filter_map, List.map_map]
  simp only [Function.comp_def, beq_self_eq_true, List.filter_true, List.map_id_fun', id_eq]

/-- Without empty namespaces the paths are those of the types. -/
theorem Listed.mem_names (h : program.Listed) :
    name ∈ program.namespaces.map (·.name) ↔ ∃ entry ∈ program.spread, entry.1 = name := by
  constructor
  · intro hname
    obtain ⟨space, hspace, rfl⟩ := List.mem_map.1 hname
    have hsize := h.sizes_ne_zero _ (List.mem_map_of_mem hspace)
    obtain ⟨type, htype⟩ := List.exists_mem_of_length_pos (Nat.pos_of_ne_zero hsize)
    exact ⟨(space.name, type), mem_spread.2 ⟨space, hspace, rfl, htype⟩, rfl⟩
  · rintro ⟨_, hentry, rfl⟩
    obtain ⟨space, hspace, hname, -⟩ := mem_spread.1 hentry
    exact List.mem_map.2 ⟨space, hspace, hname⟩

theorem Listed.namespaces_nodup (h : program.Listed) : (program.namespaces.map (·.name)).Nodup := by
  rw [names_eq_outline]
  exact h.names_nodup

theorem Alike.mem_names (h : program.Alike other)
    (hprogram : program.Listed) (hother : other.Listed) :
    name ∈ program.namespaces.map (·.name) ↔ name ∈ other.namespaces.map (·.name) := by
  rw [hprogram.mem_names, hother.mem_names]
  exact exists_congr fun _ => and_congr_left fun _ => h.spread.mem_iff

theorem Alike.reorders (h : program.Alike other) (hprogram : program.Listed)
    (hother : other.Listed) : program.Reorders other where
  namespaces := by
    -- the other program's namespaces, in the order of this one
    let moved := program.namespaces.map fun space =>
      (⟨space.name, other.typesIn space.name⟩ : Namespace)
    have hnames : moved.map (·.name) = program.namespaces.map (·.name) := List.map_map ..
    refine ⟨moved, (List.perm_ext_iff_of_nodup ?_ ?_).2 ?_, ?_⟩
    · exact .of_map (·.name) (hnames ▸ hprogram.namespaces_nodup)
    · exact .of_map (·.name) hother.namespaces_nodup
    · intro space
      constructor
      · intro hspace
        have hname : space.name ∈ other.namespaces.map (·.name) := by
          rw [← h.mem_names hprogram hother, ← hnames]
          exact List.mem_map_of_mem hspace
        obtain ⟨own, -, rfl⟩ := List.mem_map.1 hspace
        obtain ⟨_, hsame, heq⟩ := List.mem_map.1 hname
        have htypes := typesIn_of_mem hother.namespaces_nodup hsame
        rw [heq] at htypes
        rw [htypes, ← heq]
        exact hsame
      · intro hspace
        obtain ⟨own, hown, heq⟩ := List.mem_map.1
          ((h.mem_names hprogram hother).2 (List.mem_map_of_mem hspace))
        refine List.mem_map.2 ⟨own, hown, ?_⟩
        rw [heq, typesIn_of_mem hother.namespaces_nodup hspace]
    · rw [List.forall₂_map_right_iff, List.forall₂_same]
      intro space hspace
      refine ⟨rfl, ?_⟩
      rw [← typesIn_of_mem hprogram.namespaces_nodup hspace]
      exact (h.spread.filter _).map _
  externals := h.externals
  aliases := h.aliases

end Program

end StackAsm
