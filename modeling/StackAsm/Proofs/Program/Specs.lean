/-
The types a program mentions, in a fixed order: the targets of aliases,
then for each type those of its fields and of its methods. Resolving the
references of a program resolves each of them in its place
(`Program.specs_mapReferences`).
-/
import StackAsm.Proofs.Program.Linking

namespace StackAsm

variable {spec : TypeSpec}

-- ==== listing

def Operand.spec? : Operand → Option TypeSpec
  | .type spec => some spec
  | _ => none

def Instruction.specs (instruction : Instruction) : List TypeSpec :=
  instruction.operands.filterMap Operand.spec?

namespace Method

/-- The types in the head of a method. -/
def signature (method : Method) : List TypeSpec := method.result :: method.params.map (·.type)

/-- Every type that a method mentions. -/
def specs (method : Method) : List TypeSpec :=
  method.signature ++ method.body.locals.map (·.type)
    ++ method.body.instructions.flatMap Instruction.specs

end Method

/-- The types that fields and methods mention. -/
def memberSpecs (fields : List Field) (methods : List Method) :
    List TypeSpec := fields.map (·.type) ++ methods.flatMap Method.specs

/-- The types that the members of every type mention. -/
def Program.memberSpecs (program : Program) : List TypeSpec := program.types.flatMap fun entry =>
    StackAsm.memberSpecs entry.2.fields entry.2.methods

/-- Every type that a program mentions. -/
def Program.specs (program : Program) : List TypeSpec :=
  program.aliases.map (·.target) ++ program.memberSpecs

-- ==== resolving

section Change

variable (f : Reference → Reference)

theorem Instruction.specs_mapReferences (instruction : Instruction) :
    (instruction.mapReferences f).specs = instruction.specs.map (TypeSpec.mapReference f) := by
  unfold specs
  show (instruction.operands.map _).filterMap _ = _
  rw [List.filterMap_map, List.map_filterMap]
  refine List.filterMap_congr fun operand _ => ?_
  cases operand <;> rfl

theorem Method.specs_mapReferences (method : Method) :
    (method.mapReferences f).specs = method.specs.map (TypeSpec.mapReference f) := by
  have hvars : ∀ vars : List Variable, (vars.map (Variable.mapReference f)).map (·.type)
        = (vars.map (·.type)).map (TypeSpec.mapReference f) := by
    intro vars
    rw [List.map_map, List.map_map]
    rfl
  unfold specs signature
  simp only [List.map_append, List.map_cons, List.map_flatMap]
  show _ :: (method.params.map _).map _ ++ (method.body.locals.map _).map _
    ++ (method.body.instructions.map _).flatMap _ = _
  rw [hvars, hvars, List.flatMap_map]
  refine congrArg (_ ++ ·) (List.flatMap_congr fun instruction _ => ?_)
  exact instruction.specs_mapReferences f

theorem memberSpecs_mapReferences (fields : List Field) (methods : List Method) :
    memberSpecs (fields.map (Field.mapReference f)) (methods.map (Method.mapReferences f))
      = (memberSpecs fields methods).map (TypeSpec.mapReference f) := by
  unfold memberSpecs
  rw [List.map_append, List.map_map, List.map_map, List.flatMap_map, List.map_flatMap]
  refine congrArg (_ ++ ·) (List.flatMap_congr fun method _ => ?_)
  exact method.specs_mapReferences f

namespace Program

/-- Each type a program mentions has its place before and after. -/
theorem specs_mapReferences (program : Program) :
    (program.mapReferences f).specs = program.specs.map (TypeSpec.mapReference f) := by
  unfold specs memberSpecs
  rw [types_mapReferences, List.map_append, List.map_map, List.flatMap_map, List.map_flatMap]
  show (program.aliases.map _).map _ ++ _ = _
  rw [List.map_map]
  refine congrArg (_ ++ ·) (List.flatMap_congr fun entry _ => ?_)
  show StackAsm.memberSpecs (entry.2.mapReferences f).fields (entry.2.mapReferences f).methods = _
  rw [TypeDecl.mapReferences_eq]
  exact memberSpecs_mapReferences f ..

end Program

end Change

-- ==== references

theorem Instruction.mem_references_of_specs {instruction : Instruction}
    (h : spec ∈ instruction.specs) :
    spec.reference ∈ instruction.references := by
  obtain ⟨operand, hop, hspec⟩ := List.mem_filterMap.1 h
  refine List.mem_filterMap.2 ⟨operand, hop, ?_⟩
  cases operand with
  | type =>
    cases hspec
    rfl
  | _ => cases hspec

theorem Method.mem_references_of_specs {method : Method}
    (h : spec ∈ method.specs) : spec.reference ∈ method.references := by
  have hvars : ∀ vars : List Variable, spec ∈ vars.map (·.type) →
      spec.reference ∈ vars.map (·.type.reference) := by
    intro vars hspec
    obtain ⟨var, hvar, rfl⟩ := List.mem_map.1 hspec
    exact List.mem_map.2 ⟨var, hvar, rfl⟩
  unfold specs signature at h
  unfold references
  simp only [List.mem_append, List.mem_cons, List.mem_flatMap, List.map_append] at h ⊢
  rcases h with ((rfl | hparam) | hlocal) | ⟨instruction, hmem, hspec⟩
  · exact .inl (.inl rfl)
  · exact .inl (.inr (.inl (hvars _ hparam)))
  · exact .inl (.inr (.inr (hvars _ hlocal)))
  · exact .inr ⟨instruction, hmem, Instruction.mem_references_of_specs hspec⟩

theorem Program.mem_references_of_specs {program : Program}
    (h : spec ∈ program.specs) : spec.reference ∈ program.references := by
  rcases List.mem_append.1 h with hspec | hspec
  · obtain ⟨entry, hentry, rfl⟩ := List.mem_map.1 hspec
    exact List.mem_append_left _ (List.mem_map.2 ⟨entry, hentry, rfl⟩)
  · obtain ⟨entry, hentry, hspec⟩ := List.mem_flatMap.1 hspec
    refine List.mem_append_right _ (List.mem_flatMap.2 ⟨entry, hentry, ?_⟩)
    rcases List.mem_append.1 hspec with hspec | hspec
    · obtain ⟨field, hfield, rfl⟩ := List.mem_map.1 hspec
      exact List.mem_append_left _ (List.mem_map.2 ⟨field, hfield, rfl⟩)
    · obtain ⟨method, hmethod, hspec⟩ := List.mem_flatMap.1 hspec
      exact List.mem_append_right _ (List.mem_flatMap.2
        ⟨method, hmethod, Method.mem_references_of_specs hspec⟩)

end StackAsm
