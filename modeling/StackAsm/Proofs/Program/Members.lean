/-
What holds of the members of every type. `TypeDecl.All` says that a
property of fields and methods holds of a type and of all types nested in
it. Such a property goes along with the changes that reading and linking
make to a program: a type joins a namespace or another type, and
references are replaced. Fixes change the targets of branches and nothing
else (`Method.Aims`).
-/
import StackAsm.Proofs.Program.Linking

namespace StackAsm

open Instruction

variable {P Q : List Field → List Method → Prop}

-- ==== types

namespace TypeDecl

/-- Whether a property of members holds of a type and of every type in
it. -/
inductive All (P : List Field → List Method → Prop) : TypeDecl → Prop where
  | node {type : TypeDecl} (hown : P type.fields type.methods)
      (hnested : ∀ inner ∈ type.nested, All P inner) : All P type

namespace All

variable {type : TypeDecl}

theorem own (h : type.All P) : P type.fields type.methods := by
  cases h with
  | node hown => exact hown

theorem nested (h : type.All P) : ∀ inner ∈ type.nested, inner.All P := by
  cases h with
  | node hown hnested => exact hnested

/-- It holds of everything that a walk lists. -/
theorem of_walk (h : type.All P) {outer : String}
    {entry : String × TypeDecl} (hentry : entry ∈ walk outer type) :
    P entry.2.fields entry.2.methods := by
  induction h generalizing outer with
  | node hown hnested ih =>
    rw [walk_eq] at hentry
    rcases List.mem_cons.1 hentry with rfl | hentry
    · exact hown
    · obtain ⟨inner, hinner, hentry⟩ := List.mem_flatMap.1 hentry
      exact ih inner hinner hentry

/-- It holds if it holds of everything that a walk lists. -/
theorem of_forall_walk (outer : String)
    (h : ∀ entry ∈ walk outer type, P entry.2.fields entry.2.methods) :
    type.All P := by
  induction type using nested_induction generalizing outer with
  | step type ih =>
    rw [walk_eq, List.forall_mem_cons] at h
    refine .node h.1 fun inner hinner => ?_
    exact ih inner hinner _ fun entry hentry =>
      h.2 entry (List.mem_flatMap.2 ⟨inner, hinner, hentry⟩)

end All

end TypeDecl

-- ==== programs

namespace Program

/-- Whether a property of members holds of every type. -/
def All (P : List Field → List Method → Prop) (program : Program) : Prop :=
  ∀ space ∈ program.namespaces, ∀ type ∈ space.types, type.All P

namespace All

variable {program : Program} {type : TypeDecl}

theorem addExternal (h : program.All P) (path : String) : (program.addExternal path).All P := by
  unfold Program.addExternal
  split <;> exact h

theorem of_types (h : program.All P) {entry : String × TypeDecl} (hentry : entry ∈ program.types) :
    P entry.2.fields entry.2.methods := by
  obtain ⟨space, hspace, hentry⟩ := List.mem_flatMap.1 hentry
  obtain ⟨type, htype, hentry⟩ := TypeDecl.mem_walkAll.1 hentry
  exact (h space hspace type htype).of_walk hentry

theorem of_methods (h : program.All P) {entry : String × Method}
    (hentry : entry ∈ program.methods) :
    ∃ fields methods, P fields methods ∧ entry.2 ∈ methods := by
  obtain ⟨_, htype, hentry⟩ := List.mem_flatMap.1 hentry
  obtain ⟨_, hmethod, rfl⟩ := List.mem_map.1 hentry
  exact ⟨_, _, h.of_types htype, hmethod⟩

theorem of_forall_types (h : ∀ entry ∈ program.types,
      P entry.2.fields entry.2.methods) : program.All P := by
  intro space hspace type htype
  refine .of_forall_walk space.name fun entry hentry => h entry ?_
  exact List.mem_flatMap.2 ⟨space, hspace, TypeDecl.mem_walkAll.2 ⟨type, htype, hentry⟩⟩

theorem of_find? (h : program.All P) {full : String} (hfind : program.find? full = some type) :
    P type.fields type.methods := by
  obtain ⟨_, space, _, hsplit, hspace, -⟩ := exists_namespace_of_find? hfind
  obtain ⟨_, -, hpath⟩ := Option.bind_eq_some_iff.1 hspace
  obtain ⟨hentry, -⟩ := @TypeDecl.mem_walkAll_of_atPath? space.name _ _ _ hpath
  have hmem : space ∈ program.namespaces := by
    rw [hsplit]
    exact List.mem_append_right _ (.head _)
  exact h.of_types (List.mem_flatMap.2 ⟨space, hmem, hentry⟩)

theorem addType (h : program.All P) (name : String) (htype : type.All P) :
    (program.addType name type).All P := by
  rcases addType_cases program name type with
    ⟨front, space, back, hsplit, rfl, hadd⟩ | ⟨-, hadd⟩
  · rw [hadd]
    unfold All at h
    rw [hsplit] at h
    intro other hother
    rcases mem_middle.1 hother with rfl | hother
    · rw [List.forall_mem_append, List.forall_mem_singleton]
      exact ⟨h space (mem_middle.2 (.inl rfl)), htype⟩
    · exact h other (mem_middle.2 (.inr hother))
  · rw [hadd]
    refine List.forall_mem_append.2 ⟨h, ?_⟩
    rw [List.forall_mem_singleton, List.forall_mem_singleton]
    exact htype

theorem mapReferences (f : Reference → Reference)
    (hmap : ∀ fields methods, P fields methods → Q (fields.map (Field.mapReference f))
        (methods.map (Method.mapReferences f)))
    (h : program.All P) : (program.mapReferences f).All Q := by
  refine .of_forall_types fun _ hentry => ?_
  rw [types_mapReferences] at hentry
  obtain ⟨_, hold, rfl⟩ := List.mem_map.1 hentry
  rw [TypeDecl.mapReferences_eq]
  exact hmap _ _ (h.of_types hold)

end All

end Program

-- ==== fixes

/-- Whether two methods differ in the targets of branches only. -/
def Method.Aims (method fixed : Method) : Prop :=
  ∃ code, code.map unaimed = method.body.instructions.map unaimed
    ∧ fixed = { method with
      body := { method.body with instructions := code } }

/-- Whether the methods of one list are some of another one, but for the
targets of branches. -/
def Method.AimsEach (methods others : List Method) : Prop :=
  ∀ other ∈ others, ∃ method ∈ methods, method.Aims other

end StackAsm
