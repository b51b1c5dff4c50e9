/-
What the name of a type means. Where no alias stands for it, a name is
built in or is looked up (`Declarations.typeNamed`). An alias is replaced
by the text of its target, and that text is looked up where the alias is
used (`Declarations.typeWritten_of_alias`). Further in, a name means what
it means further out, unless something nearer has the name too
(`Declarations.typeNamed_of_carries`).
-/
import Mathlib.Data.List.TakeDrop
import Mathlib.Data.List.TakeWhile
import StackAsm.Program.Resolve
import StackAsm.Proofs.Program.Names

namespace StackAsm

/-- What stands in front of the first `d`. -/
theorem Text.span_bne_iff {text front back : List Char} {d : Char} :
    text.span (· != d) = (front, back)
      ↔ d ∉ front ∧ (∀ c ∈ back.head?, c = d) ∧ text = front ++ back := by
  rw [List.span_eq_takeWhile_dropWhile, Prod.mk.injEq]
  constructor
  · rintro ⟨rfl, rfl⟩
    refine ⟨fun hmem => ?_, fun c hc => ?_, List.takeWhile_append_dropWhile.symm⟩
    · simpa using List.mem_takeWhile_imp hmem
    · have hstop := List.head?_dropWhile_not (· != d) text
      rw [hc] at hstop
      simpa using hstop
  · rintro ⟨_, _, rfl⟩
    have hall : ∀ c ∈ front, (c != d) = true := by
      grind
    rw [List.takeWhile_append_of_pos hall, List.dropWhile_append_of_pos hall]
    cases back <;> simp_all

theorem Text.splitFirst_of_isPart {name : String} (h : Text.IsPart name) :
    Text.splitFirst name = (name, none) := by
  have hspan : name.toList.span (· != '.') = (name.toList, []) :=
    span_bne_iff.2 ⟨h.2, nofun, (List.append_nil _).symm⟩
  unfold splitFirst
  rw [hspan]
  simp only [String.ofList_toList]

/-- A name without dots that is an alias stands for the target of the
alias. -/
theorem Scope.expandAlias_of_find? {scope : Scope} {name target : String}
    (hname : Text.IsPart name) (halias : scope.aliases.find? (fun entry =>
      entry.1 == name) = some (name, target)) :
    scope.expandAlias name = target := by
  unfold expandAlias
  rw [Text.splitFirst_of_isPart hname]
  simp only [halias]

namespace Declarations

variable {table : Declarations} {name : String} {outer inner : Scope}

/-- What the name of a type means at a place where no alias stands for
it. -/
def typeNamed (table : Declarations) (name : String) (scope : Scope) :
    Resolution := if isPrimitiveName name then .found (.primitive name)
  else table.resolveQualified .type name scope

/-- What a type means that is written so. -/
def typeWritten (table : Declarations) (name : String) (scope : Scope) :
    Resolution := if isPrimitiveName name then .found (.primitive name)
  else table.typeNamed (scope.expandAlias name) scope

theorem resolve_type {reference : PendingReference} (hkind : reference.kind = .type) :
    table.resolve reference = table.typeWritten reference.name reference.scope := by
  unfold resolve typeWritten typeNamed
  simp only [hkind, true_and, not_true_eq_false, false_and, if_false]

/-- An alias means what the text of its target does where it is used. -/
theorem typeWritten_of_alias {scope : Scope} {target : String}
    (hname : Text.IsPart name) (hplain : isPrimitiveName name = false)
    (halias : scope.aliases.find? (fun entry => entry.1 == name)
      = some (name, target)) :
    table.typeWritten name scope = table.typeNamed target scope := by
  unfold typeWritten
  rw [hplain, Scope.expandAlias_of_find? hname halias]
  rfl

/-- A reference that is settled has the symbol that lookup finds. -/
theorem found_of_settle {reference : PendingReference}
    (h : (table.settle (.pending reference)).isPending = false) :
    ∃ symbol, table.resolve reference = .found symbol
      ∧ table.settle (.pending reference) = .resolved symbol := by
  cases hfound : table.resolve reference with
  | found symbol =>
    refine ⟨symbol, rfl, ?_⟩
    unfold settle
    simp only [hfound]
  | notFound | ambiguous =>
    unfold settle at h
    simp only [hfound] at h
    cases h

/-- A place where the name of a type is hidden by nothing that is not there
further out: not by a declaration on a nearer path and not by a later
import. The paths and imports further out have to be in view still. -/
structure Unhidden (table : Declarations) (name : String) (outer inner : Scope) : Prop where
  paths : ∃ nearer, inner.enclosingPaths = nearer ++ outer.enclosingPaths
    ∧ ∀ path ∈ nearer, table.declares .type (Text.join path name) = false
  imports : ∃ later, inner.imports = later ++ outer.imports
    ∧ ∀ path ∈ later, table.declares .type (Text.join path name) = false
      ∧ table.isExternal (Text.join path name) = false

namespace Unhidden

theorem nearest? (h : table.Unhidden name outer inner) :
    table.nearest? .type name inner.enclosingPaths
      = table.nearest? .type name outer.enclosingPaths := by
  obtain ⟨nearer, hpaths, hnone⟩ := h.paths
  have hfind : nearer.find? (fun path =>
      table.declares .type (Text.join path name)) = none := by
    rw [List.find?_eq_none]
    intro path hpath
    rw [hnone path hpath]
    exact Bool.false_ne_true
  unfold Declarations.nearest?
  rw [hpaths, List.find?_append, hfind, Option.none_or]

theorem imported (h : table.Unhidden name outer inner) :
    table.imported .type name inner.imports = table.imported .type name outer.imports := by
  obtain ⟨later, himports, hnone⟩ := h.imports
  have hfilter : (later.map (Text.join · name)).filter (table.declares .type) = [] := by
    rw [List.filter_eq_nil_iff, List.forall_mem_map]
    intro path hpath
    rw [(hnone path hpath).1]
    exact Bool.false_ne_true
  unfold Declarations.imported
  rw [himports, List.map_append, List.filter_append, hfilter, List.nil_append]

theorem external? (h : table.Unhidden name outer inner) :
    table.external? name inner.imports = table.external? name outer.imports := by
  obtain ⟨later, himports, hnone⟩ := h.imports
  have hfind : (later.map (Text.join · name)).find? table.isExternal = none := by
    rw [List.find?_eq_none, List.forall_mem_map]
    intro path hpath
    rw [(hnone path hpath).2]
    exact Bool.false_ne_true
  unfold Declarations.external?
  rw [himports, List.map_append, List.find?_cons, List.find?_cons,
    List.find?_append, hfind, Option.none_or]

end Unhidden

/-- Whether what a name means carries over further in: it is built in, or
it is no alias and nothing hides it. -/
def Carries (table : Declarations) (name : String) (outer inner : Scope) :
    Prop :=
  isPrimitiveName name = true
    ∨ outer.expandAlias name = name ∧ table.Unhidden name outer inner

theorem typeNamed_of_carries (h : table.Carries name outer inner) :
    table.typeNamed name inner = table.typeWritten name outer := by
  by_cases hbuiltIn : isPrimitiveName name = true
  · unfold typeNamed typeWritten
    rw [if_pos hbuiltIn, if_pos hbuiltIn]
  · obtain ⟨halias, hunhidden⟩ := h.resolve_left hbuiltIn
    unfold typeWritten
    rw [if_neg hbuiltIn, halias]
    unfold typeNamed resolveQualified
    rw [hunhidden.nearest?, hunhidden.imported, hunhidden.external?]

end Declarations

end StackAsm
