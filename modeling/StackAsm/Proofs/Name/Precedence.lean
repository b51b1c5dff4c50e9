/-
Which declaration a name means. Around a place are the path of its type or
namespace, whatever that path begins with up to a dot, and the empty path
(`Scope.Around`). What is declared under the longest of them comes first,
then what the imports offer, and last what is external: `Means` says so in
one case for each outcome.

Lookup goes through lists for that. The paths around a place are listed
from the longest to the empty one (`Scope.inside_enclosingPaths`), and what
several imports offer is listed once (`Declarations.offers_imported`).
-/
import StackAsm.Proofs.Program.Order

namespace StackAsm

-- ==== paths

namespace Text

theorem dottedParts_append (path rest : String) :
    dottedParts (path ++ "." ++ rest) = dottedParts path ++ dottedParts rest := by
  have htext : (path ++ "." ++ rest).toList = path.toList ++ '.' :: rest.toList := by
    rw [String.toList_append, String.toList_append, List.append_assoc]
    rfl
  unfold dottedParts
  rw [htext, List.splitOn_append_cons_self, List.map_append]

/-- A name begins with another one, up to a dot or to its end, if the first
of its parts make that one. -/
theorem around_iff {name path part : String} {parts : List String}
    (hparts : dottedParts name = part :: parts) :
    (path = name ∨ ∃ rest, name = path ++ "." ++ rest)
      ↔ ∃ front back, parts = front ++ back
        ∧ path = ".".intercalate (part :: front) := by
  have hname := intercalate_dottedParts name
  rw [hparts] at hname
  constructor
  · rintro (rfl | ⟨rest, rfl⟩)
    · exact ⟨parts, [], (List.append_nil _).symm, hname.symm⟩
    · obtain ⟨_, front, hfront⟩ := List.exists_cons_of_ne_nil (dottedParts_ne_nil path)
      rw [dottedParts_append, hfront, List.cons_append, List.cons.injEq] at hparts
      obtain ⟨rfl, rfl⟩ := hparts
      refine ⟨front, dottedParts rest, rfl, ?_⟩
      rw [← hfront, intercalate_dottedParts]
  · rintro ⟨front, back, rfl, rfl⟩
    cases back with
    | nil =>
      rw [List.append_nil] at hname
      exact .inl hname
    | cons next back =>
      refine .inr ⟨".".intercalate (next :: back), ?_⟩
      rw [← hname]
      exact String.intercalate_append_of_ne_nil (List.cons_ne_nil _ _) (List.cons_ne_nil _ _)

end Text

namespace Scope

variable {scope : Scope} {path other : String} {outer parts : List String}

/-- The path of the innermost type, or of the namespace outside of all
types. -/
def innermost (scope : Scope) : String := scope.typePath.getD scope.path

/-- Whether a path is around a place: it is the empty one or the innermost
one, or the innermost one goes on behind it with a dot. -/
def Around (scope : Scope) (path : String) : Prop :=
  path = "" ∨ path = scope.innermost
    ∨ ∃ rest, scope.innermost = path ++ "." ++ rest

/-- Whether a path is another one or longer. -/
def Inside (path other : String) : Prop := other = path ∨ other.length < path.length

theorem mem_pathsInward :
    other ∈ pathsInward path outer parts ↔ other ∈ outer
      ∨ ∃ front back, parts = front ++ back
        ∧ other = ".".intercalate (path :: front) := by
  induction parts generalizing path outer with
  | nil =>
    rw [pathsInward, List.mem_cons, or_comm]
    refine or_congr_right ⟨fun h => ⟨[], [], rfl, h⟩, ?_⟩
    rintro ⟨front, back, hparts, rfl⟩
    rw [(List.append_eq_nil_iff.1 hparts.symm).1, String.intercalate_singleton]
  | cons part parts ih =>
    rw [pathsInward, ih, List.mem_cons, @or_comm (other = path), or_assoc]
    have hstep : ∀ front : List String, ".".intercalate ((path ++ "." ++ part) :: front)
          = ".".intercalate (path :: part :: front) := by
      intro front
      rw [String.intercalate_cons_append, String.intercalate_cons_cons]
    refine or_congr_right ⟨?_, ?_⟩
    · rintro (rfl | ⟨front, back, rfl, rfl⟩)
      · exact ⟨[], part :: parts, rfl, String.intercalate_singleton.symm⟩
      · exact ⟨part :: front, back, rfl, hstep front⟩
    · rintro ⟨front, back, hparts, rfl⟩
      rcases List.cons_eq_append_iff.1 hparts with ⟨rfl, -⟩
        | ⟨front, rfl, rfl⟩
      · exact .inl String.intercalate_singleton
      · exact .inr ⟨front, back, rfl, (hstep front).symm⟩

theorem inside_pathsInward (houter : ∀ other ∈ outer, Inside path other)
    (h : outer.Pairwise Inside) :
    (pathsInward path outer parts).Pairwise Inside := by
  induction parts generalizing path outer with
  | nil => exact List.pairwise_cons.2 ⟨houter, h⟩
  | cons part parts ih =>
    refine ih ?_ (List.pairwise_cons.2 ⟨houter, h⟩)
    have hlength : path.length < (path ++ "." ++ part).length := by
      rw [String.length_append, String.length_append]
      have hdot : ".".length = 1 := rfl
      omega
    intro other hother
    rcases List.mem_cons.1 hother with rfl | hother
    · exact .inr hlength
    · rcases houter other hother with rfl | hshorter
      · exact .inr hlength
      · exact .inr (Nat.lt_trans hshorter hlength)

/-- Of the paths around a place the longer ones are listed first. -/
theorem inside_enclosingPaths (scope : Scope) : scope.enclosingPaths.Pairwise Inside := by
  unfold enclosingPaths
  simp only
  split
  · exact List.pairwise_singleton ..
  · refine inside_pathsInward ?_ (List.pairwise_singleton ..)
    intro other hother
    rw [List.mem_singleton.1 hother]
    rename_i part rest _
    rcases Nat.eq_zero_or_pos part.length with hempty | hpos
    · exact .inl (String.length_eq_zero_iff.1 hempty).symm
    · exact .inr hpos

/-- The paths around a place are the ones that are listed. -/
theorem mem_enclosingPaths : path ∈ scope.enclosingPaths ↔ scope.Around path := by
  by_cases hempty : scope.innermost = ""
  · have hpaths : scope.enclosingPaths = [""] := by
      unfold enclosingPaths
      rw [show scope.typePath.getD scope.path = "" from hempty]
      rfl
    rw [hpaths, List.mem_singleton, Around, hempty]
    refine ⟨.inl, ?_⟩
    rintro (h | h | ⟨rest, hrest⟩)
    · exact h
    · exact h
    · have hlength := congrArg String.length hrest
      rw [String.length_append, String.length_append] at hlength
      change 0 = path.length + 1 + rest.length at hlength
      omega
  · obtain ⟨part, rest, hparts⟩ :=
      List.exists_cons_of_ne_nil (Text.dottedParts_ne_nil scope.innermost)
    have hpaths : scope.enclosingPaths = pathsInward part [""] rest := by
      unfold enclosingPaths
      rw [show scope.typePath.getD scope.path = scope.innermost from rfl]
      simp only [String.isEmpty_iff, hempty, if_false, hparts]
    rw [hpaths, mem_pathsInward, List.mem_singleton, Around, Text.around_iff hparts]

end Scope

-- ==== imports and externals

/-- Whether lookup found nothing that is declared. -/
def Resolution.IsOutside : Resolution → Prop
  | .found symbol => symbol.kind = .external
  | .notFound => True
  | .ambiguous _ => False

theorem nodup_foldl_insertNew {items known : List String}
    (h : known.Nodup) : (items.foldl insertNew known).Nodup := by
  induction items generalizing known with
  | nil => exact h
  | cons item items ih =>
    refine ih ?_
    unfold insertNew
    split
    · exact h
    · rename_i hnew
      rw [List.contains_iff_mem] at hnew
      rw [← List.concat_eq_append]
      exact h.concat hnew

namespace Declarations

variable {table : Declarations} {kind : ReferenceKind} {name : String}
  {scope : Scope} {imports : List String}

/-- Whether these are the declarations of a name that imports offer, each
of them once. -/
structure Offers (table : Declarations) (kind : ReferenceKind)
    (name : String) (imports offered : List String) : Prop where
  nodup : offered.Nodup
  mem : ∀ full, full ∈ offered ↔ table.declares kind full = true
    ∧ ∃ path ∈ imports, Text.join path name = full

theorem offers_imported : table.Offers kind name imports (table.imported kind name imports) := by
  refine ⟨nodup_foldl_insertNew .nil, fun _ => ?_⟩
  unfold imported
  rw [mem_foldl_insertNew, List.mem_filter, List.mem_map, and_comm]
  simp only [List.not_mem_nil, false_or]

/-- Whether a name goes on behind an external namespace with a dot. -/
def IsExternal (table : Declarations) (name : String) : Prop :=
  ∃ path ∈ table.externals, ∃ rest, name = path ++ "." ++ rest

theorem isExternal_iff : table.isExternal name = true ↔ table.IsExternal name := by
  unfold isExternal
  rw [List.any_eq_true]
  refine exists_congr fun path => and_congr_right fun _ => ?_
  rw [Option.isSome_iff_exists]
  constructor
  · rintro ⟨rest, hrest⟩
    exact ⟨rest, Text.eq_of_within? hrest⟩
  · rintro ⟨rest, rfl⟩
    exact ⟨rest, Text.within?_append path rest⟩

-- ==== precedence

/-- Whether nothing of a kind is declared under the paths around a
place. -/
def NoneAround (table : Declarations) (kind : ReferenceKind)
    (name : String) (scope : Scope) : Prop :=
  ∀ path, scope.Around path → table.declares kind (Text.join path name) = false

/-- What a name means at a place. -/
inductive Means (table : Declarations) (kind : ReferenceKind)
    (name : String) (scope : Scope) : Resolution → Prop where
  /-- It is declared around the place; the longest path counts. -/
  | around {path : String} (haround : scope.Around path)
      (hdeclares : table.declares kind (Text.join path name) = true)
      (hlongest : ∀ other, scope.Around other → table.declares kind (Text.join other name) = true →
          Scope.Inside path other) : Means table kind name scope
        (.found ⟨kind.symbolKind, Text.join path name⟩)
  /-- The imports offer one declaration. -/
  | imported {full : String} (hnone : table.NoneAround kind name scope)
      (hoffers : table.Offers kind name scope.imports [full]) :
      Means table kind name scope (.found ⟨kind.symbolKind, full⟩)
  /-- They offer several. -/
  | ambiguous {offered : List String} (hnone : table.NoneAround kind name scope)
      (hoffers : table.Offers kind name scope.imports offered) (hseveral : 2 ≤ offered.length) :
      Means table kind name scope (.ambiguous offered)
  /-- They offer none, and the name is external. -/
  | external (hnone : table.NoneAround kind name scope)
      (hoffers : table.Offers kind name scope.imports []) (h : table.IsExternal name) :
      Means table kind name scope (.found ⟨.external, name⟩)
  /-- It is not, but it is external in an import; the first counts. -/
  | importedExternal {before after : List String} {path : String}
      (hnone : table.NoneAround kind name scope) (hoffers : table.Offers kind name scope.imports [])
      (hname : ¬ table.IsExternal name) (himports : scope.imports = before ++ path :: after)
      (hbefore : ∀ other ∈ before, ¬ table.IsExternal (Text.join other name))
      (h : table.IsExternal (Text.join path name)) :
      Means table kind name scope (.found ⟨.external, Text.join path name⟩)
  | notFound (hnone : table.NoneAround kind name scope)
      (hoffers : table.Offers kind name scope.imports []) (hname : ¬ table.IsExternal name)
      (himports : ∀ path ∈ scope.imports, ¬ table.IsExternal (Text.join path name)) :
      Means table kind name scope .notFound

theorem means_external (hnone : table.NoneAround kind name scope)
    (hoffers : table.Offers kind name scope.imports []) :
    table.Means kind name scope (match table.external? name scope.imports with
      | some symbol => .found symbol
      | none => .notFound) := by
  unfold external?
  rw [List.find?_cons]
  cases hname : table.isExternal name with
  | true => exact .external hnone hoffers (isExternal_iff.1 hname)
  | false =>
    rw [Bool.eq_false_iff, Ne, isExternal_iff] at hname
    simp only [List.find?_map]
    cases hfind : scope.imports.find? (table.isExternal ∘ (Text.join · name)) with
    | some =>
      obtain ⟨hpath, _, _, himports, hbefore⟩ := List.find?_eq_some_iff_append.1 hfind
      refine .importedExternal hnone hoffers hname himports ?_ (isExternal_iff.1 hpath)
      intro other hother hexternal
      have hmissing := hbefore other hother
      rw [Function.comp_apply, isExternal_iff.2 hexternal] at hmissing
      cases hmissing
    | none =>
      refine .notFound hnone hoffers hname fun path hpath hexternal => ?_
      exact List.find?_eq_none.1 hfind path hpath (isExternal_iff.2 hexternal)

theorem means_resolveQualified (table : Declarations)
    (kind : ReferenceKind) (name : String) (scope : Scope) :
    table.Means kind name scope (table.resolveQualified kind name scope) := by
  unfold resolveQualified nearest?
  cases hfind : scope.enclosingPaths.find? fun path =>
      table.declares kind (Text.join path name) with
  | some path =>
    obtain ⟨hdeclares, _, _, hpaths, hbefore⟩ := List.find?_eq_some_iff_append.1 hfind
    have hmem : path ∈ scope.enclosingPaths := List.mem_of_find?_eq_some hfind
    refine .around (Scope.mem_enclosingPaths.1 hmem) hdeclares ?_
    -- paths are tried from the longest on, and those before declare nothing
    intro other hother hfound
    have hsorted := scope.inside_enclosingPaths
    rw [← Scope.mem_enclosingPaths, hpaths, List.mem_append, List.mem_cons] at hother
    rw [hpaths, List.pairwise_append, List.pairwise_cons] at hsorted
    rcases hother with hother | rfl | hother
    · have hmissing := hbefore other hother
      rw [hfound] at hmissing
      cases hmissing
    · exact .inl rfl
    · exact hsorted.2.1.1 other hother
  | none =>
    have hnone : table.NoneAround kind name scope := by
      intro path hpath
      exact Bool.eq_false_iff.2 (List.find?_eq_none.1 hfind path (Scope.mem_enclosingPaths.2 hpath))
    have hoffers : table.Offers kind name scope.imports _ := offers_imported
    simp only [Option.map_none]
    split
    · rename_i full himported
      rw [himported] at hoffers
      exact .imported hnone hoffers
    · rename_i himported
      rw [himported] at hoffers
      exact means_external hnone hoffers
    · rename_i hone hempty
      refine .ambiguous hnone hoffers ?_
      generalize table.imported kind name scope.imports = offered at *
      match offered with
      | [] => exact absurd rfl hempty
      | [full] => exact absurd rfl (hone full)
      | _ :: _ :: _ => exact Nat.le_add_left ..

-- ==== order of imports

theorem isOutside_external : (match table.external? name imports with
      | some symbol => .found symbol
      | none => .notFound : Resolution).IsOutside := by
  unfold external?
  cases (name :: imports.map (Text.join · name)).find? table.isExternal with
  | some => rfl
  | none => trivial

/-- In another order the imports offer the same declarations. -/
theorem resolveQualified_perm (table : Declarations) (kind : ReferenceKind) (name : String)
    (hperm : imports.Perm scope.imports) :
    table.resolveQualified kind name { scope with imports }
        = table.resolveQualified kind name scope
      ∨ ((table.resolveQualified kind name { scope with imports }).IsOutside
        ∧ (table.resolveQualified kind name scope).IsOutside)
      ∨ ∃ permuted offered, permuted.Perm offered
        ∧ table.resolveQualified kind name { scope with imports }
          = .ambiguous permuted
        ∧ table.resolveQualified kind name scope = .ambiguous offered := by
  have hoffered : (table.imported kind name imports).Perm
      (table.imported kind name scope.imports) := by
    refine (List.perm_ext_iff_of_nodup offers_imported.nodup offers_imported.nodup).2 fun full => ?_
    simp only [offers_imported.mem, hperm.mem_iff]
  unfold resolveQualified
  rw [show ({ scope with imports } : Scope).enclosingPaths = scope.enclosingPaths from rfl]
  split
  · exact .inl rfl
  · simp only
    generalize table.imported kind name imports = permuted at *
    generalize table.imported kind name scope.imports = offered at *
    match offered, hoffered with
    | [], hoffered =>
      rw [hoffered.eq_nil]
      exact .inr (.inl ⟨isOutside_external, isOutside_external⟩)
    | [full], hoffered =>
      rw [List.perm_singleton.1 hoffered]
      exact .inl rfl
    | first :: second :: more, hoffered =>
      match permuted, hoffered with
      | [], hoffered => cases hoffered.symm.eq_nil
      | [full], hoffered => cases List.perm_singleton.1 hoffered.symm
      | _ :: _ :: _, hoffered =>
        exact .inr (.inr ⟨_, _, hoffered, rfl, rfl⟩)

end Declarations

-- ==== references

namespace PendingReference

variable {reference : PendingReference}

/-- The name of a reference with its alias replaced. -/
def expanded (reference : PendingReference) : String := reference.scope.expandAlias reference.name

/-- Whether a reference is looked up along paths: it is to a type that is
not built in, or to a member whose name has a dot. -/
def IsPath (reference : PendingReference) : Prop :=
  (reference.kind = .type ∧ isPrimitiveName reference.name = false
      ∧ isPrimitiveName reference.expanded = false)
    ∨ (reference.kind ≠ .type ∧ '.' ∈ reference.expanded.toList)

/-- The reference with other imports in view. -/
def withImports (reference : PendingReference) (imports : List String) :
    PendingReference := { reference with scope := { reference.scope with imports } }

theorem IsPath.resolve (h : reference.IsPath) (table : Declarations) :
    table.resolve reference = table.resolveQualified reference.kind
      reference.expanded reference.scope := by
  unfold Declarations.resolve
  rw [show reference.scope.expandAlias reference.name = reference.expanded from rfl]
  rcases h with ⟨hkind, hwritten, hexpanded⟩ | ⟨hkind, hdot⟩
  · simp [hkind, hwritten, hexpanded]
  · simp [hkind, hdot]

end PendingReference

/-- Lookup keeps to precedence: a name means what is declared under the
longest path around the place, whatever is imported, then what the imports
offer, and then what is external. The order of the imports decides neither
which declaration is found nor which ones are ambiguous. -/
theorem Declarations.means_resolve (table : Declarations)
    {reference : PendingReference} (h : reference.IsPath) :
    table.Means reference.kind reference.expanded reference.scope (table.resolve reference)
    ∧ ∀ imports, imports.Perm reference.scope.imports →
      (∀ symbol : Symbol, symbol.kind ≠ .external →
        (table.resolve (reference.withImports imports) = .found symbol
          ↔ table.resolve reference = .found symbol))
      ∧ ∀ offered, table.resolve reference = .ambiguous offered → ∃ permuted, permuted.Perm offered
          ∧ table.resolve (reference.withImports imports)
            = .ambiguous permuted := by
  rw [h.resolve]
  refine ⟨table.means_resolveQualified .., fun imports hperm => ?_⟩
  have hother : (reference.withImports imports).IsPath := h
  rw [hother.resolve]
  show (∀ symbol : Symbol, symbol.kind ≠ .external →
      (table.resolveQualified reference.kind reference.expanded
        { reference.scope with imports } = .found symbol ↔ _))
    ∧ ∀ offered, _ → ∃ permuted, _ ∧ table.resolveQualified reference.kind
      reference.expanded { reference.scope with imports } = _
  rcases table.resolveQualified_perm reference.kind reference.expanded hperm
    with hsame | ⟨hnew, hold⟩ | ⟨permuted, offered, hoffered, hnew, hold⟩
  · rw [hsame]
    exact ⟨fun symbol _ => Iff.rfl, fun offered h => ⟨offered, .refl _, h⟩⟩
  · refine ⟨fun symbol hsymbol => ⟨fun h => ?_, fun h => ?_⟩, fun offered h => ?_⟩
    · rw [h] at hnew
      exact absurd hnew hsymbol
    · rw [h] at hold
      exact absurd hold hsymbol
    · rw [h] at hold
      exact hold.elim
  · rw [hnew, hold]
    refine ⟨fun symbol _ => ⟨nofun, nofun⟩, fun found h => ?_⟩
    cases h
    exact ⟨permuted, hoffered, rfl⟩

namespace Sample

/-- One type at the top and one inside, and one that two imports have. -/
def towns : Declarations := { types := ["T", "A.T", "L.U", "M.U"], externals := ["Sys"] }

/-- A type that is written in a namespace, where an alias is in view. -/
def visit (name : String) : PendingReference :=
  ⟨name, .type, ⟨"A.B", none, ["L", "M"], [("V", "U")]⟩, ⟨"", 1, none⟩⟩

/-- The nearer one of two types is found, and an alias of the one that two
imports have is ambiguous, in the order of the imports. -/
theorem means_resolve_towns :
    (visit "T").IsPath ∧ (visit "V").IsPath
      ∧ towns.Means .type "T" (visit "T").scope (.found ⟨.type, "A.T"⟩)
      ∧ towns.Means .type "U" (visit "V").scope (.ambiguous ["L.U", "M.U"])
      ∧ ∃ permuted, permuted.Perm ["L.U", "M.U"]
        ∧ towns.resolve ((visit "V").withImports ["M", "L"])
          = .ambiguous permuted := by
  have hnear : (visit "T").IsPath := .inl ⟨rfl, rfl, rfl⟩
  have halias : (visit "V").IsPath := .inl ⟨rfl, rfl, rfl⟩
  have hfound := (towns.means_resolve hnear).1
  obtain ⟨hmeans, hperm⟩ := towns.means_resolve halias
  exact ⟨hnear, halias, hfound, hmeans, (hperm ["M", "L"] (.swap ..)).2 _ rfl⟩

end Sample

end StackAsm
