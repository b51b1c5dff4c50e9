/-
Programs that agree but for their references. Two programs agree under a
relation of references if they are equal part by part, names, order,
lines and all, and the relation holds wherever both have a reference
(`Program.Agrees`). This goes through the parts of a program, not through
the list of its references; so that a program agrees with one whose
references were changed as soon as the relation holds of those in the
list (`Program.agrees_mapReferences`) says that the list leaves no
reference out.
-/
import StackAsm.Proofs.Program.Linking

namespace StackAsm

-- ==== parts

section Parts

variable (R : Reference → Reference → Prop)

structure TypeSpec.Agrees (spec other : TypeSpec) : Prop where
  reference : R spec.reference other.reference
  dims : other.dims = spec.dims

structure Variable.Agrees (var other : Variable) : Prop where
  name : other.name = var.name
  type : var.type.Agrees R other.type

inductive Operand.Agrees : Operand → Operand → Prop where
  | type {spec other : TypeSpec} (h : spec.Agrees R other) : Agrees (.type spec) (.type other)
  | field {reference other : Reference} (h : R reference other) :
      Agrees (.field reference) (.field other)
  | method {reference other : Reference} (h : R reference other) :
      Agrees (.method reference) (.method other)
  /-- An operand without a reference is the same. -/
  | same {operand : Operand} (h : operand.reference? = none) : Agrees operand operand

structure Instruction.Agrees (instruction other : Instruction) : Prop where
  opcode : other.opcode = instruction.opcode
  operands : List.Forall₂ (Operand.Agrees R) instruction.operands other.operands
  line : other.line = instruction.line

structure Method.Agrees (method other : Method) : Prop where
  name : other.name = method.name
  attrs : other.attrs = method.attrs
  result : method.result.Agrees R other.result
  params : List.Forall₂ (Variable.Agrees R) method.params other.params
  locals : List.Forall₂ (Variable.Agrees R) method.body.locals other.body.locals
  labels : other.body.labels = method.body.labels
  instructions : List.Forall₂ (Instruction.Agrees R)
    method.body.instructions other.body.instructions
  line : other.line = method.line

structure Field.Agrees (field other : Field) : Prop where
  name : other.name = field.name
  attrs : other.attrs = field.attrs
  type : field.type.Agrees R other.type
  line : other.line = field.line

inductive TypeDecl.Agrees : TypeDecl → TypeDecl → Prop where
  | node {type other : TypeDecl} (name : other.name = type.name) (attrs : other.attrs = type.attrs)
      (fields : List.Forall₂ (Field.Agrees R) type.fields other.fields)
      (methods : List.Forall₂ (Method.Agrees R) type.methods other.methods)
      (nested : List.Forall₂ Agrees type.nested other.nested)
      (line : other.line = type.line) : Agrees type other

structure Namespace.Agrees (space other : Namespace) : Prop where
  name : other.name = space.name
  types : List.Forall₂ (TypeDecl.Agrees R) space.types other.types

structure TypeAlias.Agrees (entry other : TypeAlias) : Prop where
  name : other.name = entry.name
  target : entry.target.Agrees R other.target

structure Program.Agrees (program other : Program) : Prop where
  namespaces : List.Forall₂ (Namespace.Agrees R) program.namespaces other.namespaces
  externals : other.externals = program.externals
  aliases : List.Forall₂ (TypeAlias.Agrees R) program.aliases other.aliases

end Parts

-- ==== changed references

section Change

variable {R : Reference → Reference → Prop} {f : Reference → Reference}

/-- Items that are related to what they are changed to. -/
theorem forall₂_map_self {α : Type} {S : α → α → Prop} {change : α → α}
    {items : List α} (h : ∀ item ∈ items, S item (change item)) :
    List.Forall₂ S items (items.map change) := List.forall₂_map_right_iff.2 (List.forall₂_same.2 h)

theorem TypeSpec.agrees_mapReference {spec : TypeSpec} (h : R spec.reference (f spec.reference)) :
    spec.Agrees R (spec.mapReference f) := ⟨h, rfl⟩

theorem Operand.agrees_mapReference {operand : Operand}
    (h : ∀ reference ∈ operand.reference?, R reference (f reference)) :
    operand.Agrees R (operand.mapReference f) := by
  cases operand with
  | type => exact .type (TypeSpec.agrees_mapReference (h _ rfl))
  | field => exact .field (h _ rfl)
  | method => exact .method (h _ rfl)
  | _ => exact .same rfl

theorem Instruction.agrees_mapReferences {instruction : Instruction}
    (h : ∀ reference ∈ instruction.references, R reference (f reference)) :
    instruction.Agrees R (instruction.mapReferences f) where
  opcode := rfl
  line := rfl
  operands := forall₂_map_self fun operand hop =>
    Operand.agrees_mapReference fun reference href =>
      h reference (List.mem_filterMap.2 ⟨operand, hop, href⟩)

theorem agrees_mapVariables {vars : List Variable}
    (h : ∀ var ∈ vars, R var.type.reference (f var.type.reference)) :
    List.Forall₂ (Variable.Agrees R) vars (vars.map (Variable.mapReference f)) :=
  forall₂_map_self fun var hvar =>
    ⟨rfl, TypeSpec.agrees_mapReference (h var hvar)⟩

theorem Method.agrees_mapReferences {method : Method}
    (h : ∀ reference ∈ method.references, R reference (f reference)) :
    method.Agrees R (method.mapReferences f) := by
  obtain ⟨hresult, hparams, hlocals, hcode⟩ := forall_references_iff.1 h
  exact
    { name := rfl
      attrs := rfl
      result := TypeSpec.agrees_mapReference hresult
      params := agrees_mapVariables hparams
      locals := agrees_mapVariables hlocals
      labels := rfl
      instructions := forall₂_map_self fun instruction hmem =>
        Instruction.agrees_mapReferences (hcode instruction hmem)
      line := rfl }

/-- A type agrees if the relation holds of the references of all types
that a walk lists. -/
theorem TypeDecl.agrees_mapReferences {type : TypeDecl} (outer : String)
    (h : ∀ entry ∈ walk outer type, ∀ reference ∈ entry.2.ownReferences,
      R reference (f reference)) :
    type.Agrees R (type.mapReferences f) := by
  induction type using nested_induction generalizing outer with
  | step type ih =>
    have hown := h _ (self_mem_walk outer type)
    unfold ownReferences at hown
    rw [List.forall_mem_append, List.forall_mem_map] at hown
    obtain ⟨hfields, hmethods⟩ := hown
    rw [mapReferences_eq]
    refine .node rfl rfl ?_ ?_ ?_ rfl
    · exact forall₂_map_self fun field hfield =>
        ⟨rfl, rfl, TypeSpec.agrees_mapReference (hfields field hfield), rfl⟩
    · exact forall₂_map_self fun method hmethod =>
        Method.agrees_mapReferences fun reference href =>
          hmethods reference (List.mem_flatMap.2 ⟨method, hmethod, href⟩)
    · exact forall₂_map_self fun inner hinner =>
        ih inner hinner _ fun entry hentry =>
          h entry (mem_walk_of_nested hinner hentry)

/-- A program agrees with the one that its references are changed to, if
the relation holds of those that are listed. -/
theorem Program.agrees_mapReferences {program : Program}
    (h : ∀ reference ∈ program.references, R reference (f reference)) :
    program.Agrees R (program.mapReferences f) := by
  unfold references at h
  rw [List.forall_mem_append, List.forall_mem_map] at h
  obtain ⟨haliases, htypes⟩ := h
  refine ⟨?_, rfl, ?_⟩
  · refine forall₂_map_self fun space hspace => ⟨rfl, ?_⟩
    show List.Forall₂ _ space.types (TypeDecl.mapAllReferences f space.types)
    rw [TypeDecl.mapAllReferences_eq]
    refine forall₂_map_self fun type htype =>
      TypeDecl.agrees_mapReferences space.name ?_
    intro entry hentry reference href
    have hlisted : entry ∈ program.types :=
      List.mem_flatMap.2 ⟨space, hspace, TypeDecl.mem_walkAll.2 ⟨type, htype, hentry⟩⟩
    exact htypes reference (List.mem_flatMap.2 ⟨entry, hlisted, href⟩)
  · exact forall₂_map_self fun entry hentry =>
      ⟨rfl, TypeSpec.agrees_mapReference (haliases entry hentry)⟩

end Change

end StackAsm
