/-
What a container declares. Reading one gives a list of declarations
(`readDeclarations`), and behind the last of them the file must end; the
program is assembled from that list. Assembling takes every external
once and joins namespaces of one name. Nothing is lost or made up on the
way: the types of the program are those of the declared namespaces, in
another order at most (`perm_mergeNamespaces`), and in the same order if
no name is repeated.
-/
import Mathlib.Data.List.Perm.Basic
import StackAsm.Proofs.Container.Image

namespace StackAsm

open Decode

namespace Container

-- ==== reading

/-- What the segments at the top of a container declare; nothing if they
cannot be read. -/
def declared (set : InstructionSet) (names : Option DebugNames)
    (bytes : List UInt8) : List Source.Declaration :=
  match (readDeclarations set names).run
      { chunk := "container", rest := bytes } with
  | .ok declarations _ => declarations
  | .error _ _ => []

section Reading

variable {set : InstructionSet} {names : Option DebugNames} {bytes : List UInt8} {program : Program}

theorem declared_of_run {declarations : List Source.Declaration} {later : ByteInput}
    (h : (readDeclarations set names).run ⟨"container", bytes, 0⟩
      = .ok declarations later) :
    declared set names bytes = declarations := by
  unfold declared
  rw [h]

theorem run_read_of_ofContainer (h : Program.ofContainer set names bytes = .ok program) :
    ∃ later, (read set names).run ⟨"container", bytes, 0⟩ = .ok program later := by
  unfold Program.ofContainer at h
  split at h
  · rename_i later hrun
    cases h
    exact ⟨later, hrun⟩
  · cases h

/-- A container that can be read gives its declarations, and the program
assembled from them. -/
theorem declared_of_ofContainer (h : Program.ofContainer set names bytes = .ok program) :
    (∃ later, (readDeclarations set names).run ⟨"container", bytes, 0⟩
        = .ok (declared set names bytes) later ∧ later.rest = [])
      ∧ program = Source.assemble (declared set names bytes) := by
  obtain ⟨later, hrun⟩ := run_read_of_ofContainer h
  rw [read_eq, run_whole_ok_iff] at hrun
  obtain ⟨_, hrun, hrest, rfl⟩ := hrun
  rw [declared_of_run hrun]
  exact ⟨⟨later, hrun, hrest⟩, rfl⟩

end Reading

-- ==== assembling

namespace Source

/-- The name of a namespace that is declared, with or without types. -/
def Declaration.spaceName? : Declaration → Option String
  | .space name _ => some name
  | _ => none

theorem nodup_eraseDups (names : List String) : names.eraseDups.Nodup := by
  cases names with
  | nil => exact .nil
  | cons =>
    rw [List.eraseDups_cons, List.nodup_cons, List.mem_eraseDups]
    exact ⟨by simp, nodup_eraseDups _⟩
termination_by names.length
decreasing_by exact Nat.lt_succ_of_le (List.length_filter_le _ _)

/-- Items taken by the names they have are all the items. -/
theorem perm_flatMap_filter {names : List String} (hnodup : names.Nodup) {spaces : List Namespace}
    (h : ∀ space ∈ spaces, space.name ∈ names) :
    List.Perm (names.flatMap fun name => spaces.filter (·.name == name)) spaces := by
  induction names generalizing spaces with
  | nil =>
    rw [List.eq_nil_iff_forall_not_mem.2 fun space hspace => List.not_mem_nil (h space hspace)]
    exact .nil
  | cons name names ih =>
    rw [List.nodup_cons] at hnodup
    refine .trans (.append_left _ ?_) (List.filter_append_perm (·.name == name) spaces)
    -- The other names are not those of the items of this one.
    have hothers : names.flatMap (fun other => spaces.filter (·.name == other))
        = names.flatMap fun other => (spaces.filter (!·.name == name)).filter (·.name == other) := by
      refine List.flatMap_congr fun other hother => ?_
      rw [List.filter_filter]
      grind
    exact (List.Perm.of_eq hothers).trans (ih hnodup.2 (by grind))

/-- Joining namespaces keeps what is made of their types, in another order
at most. -/
theorem perm_mergeNamespaces {β : Type} (view : String → TypeDecl → List β)
    (spaces : List Namespace) :
    List.Perm ((mergeNamespaces spaces).flatMap fun space =>
        space.types.flatMap (view space.name))
      (spaces.flatMap fun space => space.types.flatMap (view space.name)) := by
  have hparts : ((mergeNamespaces spaces).flatMap fun space =>
        space.types.flatMap (view space.name))
      = ((spaces.map (·.name)).eraseDups.flatMap fun name =>
          spaces.filter fun space => space.name == name).flatMap
        fun space => space.types.flatMap (view space.name) := by
    unfold mergeNamespaces
    rw [List.flatMap_map, List.flatMap_assoc]
    refine congrArg (List.flatMap · _) (funext fun name => ?_)
    rw [Table.group_groupBy, List.flatMap_assoc]
    have hname : ∀ space ∈ spaces.filter fun space => space.name == name,
        space.types.flatMap (view name)
          = space.types.flatMap (view space.name) := by
      intro space hspace
      rw [beq_iff_eq.1 (List.mem_filter.1 hspace).2]
    exact List.flatMap_congr hname
  rw [hparts]
  refine (perm_flatMap_filter (nodup_eraseDups _) fun _ hspace => ?_).flatMap_right _
  exact List.mem_eraseDups.2 (List.mem_map_of_mem hspace)

theorem names_mergeNamespaces (spaces : List Namespace) :
    (mergeNamespaces spaces).map (·.name) = (spaces.map (·.name)).eraseDups := by
  unfold mergeNamespaces
  rw [List.map_map]
  exact List.map_id _

/-- What holds of every declared type, with the name of its namespace,
holds after joining. -/
theorem forall_mergeNamespaces {P : String → TypeDecl → Prop} {spaces : List Namespace}
    (h : ∀ space ∈ spaces, ∀ type ∈ space.types, P space.name type) :
    ∀ space ∈ mergeNamespaces spaces, ∀ type ∈ space.types, P space.name type := by
  intro space hspace type htype
  have hmem : (space.name, type) ∈ (mergeNamespaces spaces).flatMap
      fun space => space.types.flatMap fun type => [(space.name, type)] :=
    List.mem_flatMap.2 ⟨space, hspace, List.mem_flatMap.2 ⟨type, htype, List.mem_singleton_self _⟩⟩
  rw [(perm_mergeNamespaces (fun name type => [(name, type)]) spaces).mem_iff] at hmem
  obtain ⟨part, hpart, hmem⟩ := List.mem_flatMap.1 hmem
  obtain ⟨_, hother, hmem⟩ := List.mem_flatMap.1 hmem
  rw [List.mem_singleton, Prod.mk.injEq] at hmem
  obtain ⟨hname, rfl⟩ := hmem
  rw [hname]
  exact h part hpart type hother

/-- A namespace with types still has them after joining. -/
theorem types_ne_nil_mergeNamespaces {spaces : List Namespace}
    (h : ∀ space ∈ spaces, space.types ≠ []) :
    ∀ space ∈ mergeNamespaces spaces, space.types ≠ [] := by
  intro space hspace
  obtain ⟨_, hname, rfl⟩ := List.mem_map.1 hspace
  rw [List.mem_eraseDups, List.mem_map] at hname
  obtain ⟨part, hpart, rfl⟩ := hname
  rw [Table.group_groupBy]
  intro hnil
  rw [List.flatMap_eq_nil_iff] at hnil
  exact h part hpart (hnil part (List.mem_filter.2 ⟨hpart, by simp⟩))

theorem length_eraseDups_le (names : List String) :
    names.eraseDups.length ≤ names.length :=
  (List.subperm_of_subset (nodup_eraseDups names) fun _ hname =>
    List.mem_eraseDups.1 hname).length_le

section Assemble

variable (declarations : List Declaration)

/-- The namespaces of a program are declared, and have types. -/
theorem of_mem_filterMap_space? {space : Namespace}
    (h : space ∈ declarations.filterMap Declaration.space?) :
    .space space.name space.types ∈ declarations ∧ space.types ≠ [] := by
  obtain ⟨_, hmem, hspace⟩ := List.mem_filterMap.1 h
  unfold Declaration.space? at hspace
  split at hspace
  · split at hspace
    · cases hspace
    · rename_i hne
      cases hspace
      exact ⟨hmem, by simpa using hne⟩
  · cases hspace

/-- Every declaration is of one kind. -/
theorem length_filterMap_le :
    (declarations.filterMap Declaration.external?).length
        + (declarations.filterMap Declaration.typeAlias?).length
        + (declarations.filterMap Declaration.space?).length
      ≤ declarations.length := by
  induction declarations with
  | nil => exact Nat.le_refl _
  | cons declaration =>
    cases declaration <;>
      grind [Declaration.external?, Declaration.typeAlias?, Declaration.space?]

theorem segmentCount_assemble_le : (assemble declarations).segmentCount ≤ declarations.length := by
  have hexternals := length_eraseDups_le (declarations.filterMap Declaration.external?)
  have hnames := length_eraseDups_le ((declarations.filterMap Declaration.space?).map (·.name))
  rw [← names_mergeNamespaces, List.length_map, List.length_map] at hnames
  have hall := length_filterMap_le declarations
  show (declarations.filterMap Declaration.external?).eraseDups.length
    + (declarations.filterMap Declaration.typeAlias?).length
    + (mergeNamespaces (declarations.filterMap Declaration.space?)).length ≤ _
  omega

end Assemble

end Source

end Container

end StackAsm
