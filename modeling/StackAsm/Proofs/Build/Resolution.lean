/-
Resolution, complete and sound. Every reference of a program is looked
up, wherever it stands, and nothing else is touched. What is found is
something that the name may mean: a built-in type, a declaration of the
program of the kind that is asked for, or a name under an external
namespace (`Program.Offers`). What is not found stays, and an error says
where it was written (`Program.Settles`).

# Shape of the argument

- `Program.offers_of_resolve`: each way in which lookup finds a
  symbol makes it one that is offered.
- `Declarations.exists_names_of_complaints`: every reference that lookup
  does not find is complained about. A name that was missed on the same
  line before is not reported again, but then the earlier report has the
  same name, file and line.
- `Program.agrees_mapReferences` takes both to every place that holds a
  reference, and `Program.references_mapReferences` counts them.
-/
import StackAsm.Proofs.Build.Linked
import StackAsm.Proofs.Name.Precedence

namespace StackAsm

-- ==== what is found

/-- What a reference of a kind may mean in a program. -/
inductive Program.Offers (program : Program) (kind : ReferenceKind) : Symbol → Prop where
  | builtIn {name : String} (hkind : kind = .type) (h : isPrimitiveName name = true) :
      Offers program kind (.primitive name)
  | declared {name : String} {entry : String × TypeDecl} (hentry : entry ∈ program.types)
      (h : name ∈ entry.2.declaredNames kind entry.1) : Offers program kind ⟨kind.symbolKind, name⟩
  | external {path rest : String} (h : path ∈ program.externals) :
      Offers program kind ⟨.external, path ++ "." ++ rest⟩

/-- Lookup finds only what a program offers. -/
theorem Program.offers_of_resolve {program : Program}
    {reference : PendingReference} {symbol : Symbol}
    (h : program.declarations.resolve reference = .found symbol) :
    program.Offers reference.kind symbol := by
  have hdeclared : ∀ {full : String}, program.declarations.declares reference.kind full = true →
        program.Offers reference.kind
          ⟨reference.kind.symbolKind, full⟩ := by
    intro full hfull
    obtain ⟨_, hentry, hname⟩ := declares_declarations.1 hfull
    exact .declared hentry hname
  have hexternal : ∀ {full : String}, program.declarations.IsExternal full →
        program.Offers reference.kind ⟨.external, full⟩ := by
    rintro full ⟨path, hpath, _, rfl⟩
    exact .external (mem_externals_declarations.1 hpath)
  unfold Declarations.resolve at h
  simp only at h
  split at h
  · rename_i hbuiltIn
    cases h
    exact .builtIn hbuiltIn.1 hbuiltIn.2
  · split at h
    · rename_i hbuiltIn
      cases h
      exact .builtIn hbuiltIn.1 hbuiltIn.2
    · split at h
      · split at h
        · rename_i hown
          cases h
          obtain ⟨path, -, hpath⟩ := Option.bind_eq_some_iff.1 hown
          obtain ⟨_, hnear, rfl⟩ := Option.map_eq_some_iff.1 hpath
          have hdeclares := List.find?_some hnear
          exact hdeclared hdeclares
        · cases h
      · have hmeans := program.declarations.means_resolveQualified
          reference.kind (reference.scope.expandAlias reference.name) reference.scope
        rw [h] at hmeans
        cases hmeans with
        | around haround hdeclares => exact hdeclared hdeclares
        | imported hnone hoffers =>
          exact hdeclared ((hoffers.mem _).1 (List.mem_singleton_self _)).1
        | external hnone hoffers hname => exact hexternal hname
        | importedExternal hnone hoffers hname himports hbefore hpath =>
          exact hexternal hpath

-- ==== what is missed

/-- An error that has the name of a reference and the place where it was
written. -/
structure Diagnostic.Names (d : Diagnostic) (reference : PendingReference) : Prop where
  isError : d.isError = true
  file : d.file = some reference.origin.file
  line : d.line = reference.origin.line
  message : ∃ problem, d.message = problem ++ ": " ++ reference.name

namespace PendingReference

theorem names_complaint (reference : PendingReference) (problem : String) :
    (reference.complaint problem).Names reference := ⟨rfl, rfl, rfl, _, rfl⟩

/-- What names a reference names every reference that is reported under
the same key. -/
theorem names_of_missingKey {reference other : PendingReference}
    {d : Diagnostic} (h : d.Names other) (hkey : reference.missingKey = other.missingKey) :
    d.Names reference := by
  simp only [missingKey, Prod.mk.injEq] at hkey
  obtain ⟨hname, hfile, hline⟩ := hkey
  obtain ⟨problem, hmessage⟩ := h.message
  exact ⟨h.isError, hfile ▸ h.file, hline ▸ h.line, problem, hname ▸ hmessage⟩

end PendingReference

/-- A reference that lookup does not find is complained about, unless a
report under its key was made before. -/
theorem Declarations.exists_names_of_complaints {table : Declarations}
    (reported : Table MissingKey Unit) {references : List Reference}
    {reference : PendingReference} (hmem : .pending reference ∈ references)
    (hmissed : ∀ symbol, table.resolve reference ≠ .found symbol) :
    (reported.get? reference.missingKey).isSome = true
      ∨ ∃ d ∈ table.complaints reported references, d.Names reference := by
  induction references generalizing reported with
  | nil => cases hmem
  | cons first rest ih =>
    cases first with
    | resolved =>
      exact ih reported ((List.mem_cons.1 hmem).resolve_left nofun)
    | pending other =>
      unfold complaints
      split
      · rename_i symbol hfound
        refine ih reported ((List.mem_cons.1 hmem).resolve_left fun hsame => ?_)
        cases hsame
        exact hmissed symbol hfound
      · simp only
        split
        · rename_i hknown
          rcases List.mem_cons.1 hmem with hsame | hrest
          · cases hsame
            exact .inl hknown
          · exact ih reported hrest
        · -- The report of this one serves for all under its key.
          have hnames := other.names_complaint "Unresolved"
          by_cases hkey : reference.missingKey = other.missingKey
          · exact .inr ⟨_, .head _, PendingReference.names_of_missingKey hnames hkey⟩
          · rcases List.mem_cons.1 hmem with hsame | hrest
            · cases hsame
              exact absurd rfl hkey
            · rcases ih (reported.insert other.missingKey ()) hrest with
                hknown | ⟨d, hd, hnames⟩
              · rw [Table.get?_insert, beq_false_of_ne hkey] at hknown
                exact .inl hknown
              · exact .inr ⟨d, .tail _ hd, hnames⟩
      · rcases List.mem_cons.1 hmem with hsame | hrest
        · cases hsame
          exact .inr ⟨_, .head _, rfl, rfl, rfl, _, rfl⟩
        · rcases ih reported hrest with hknown | ⟨d, hd, hnames⟩
          · exact .inl hknown
          · exact .inr ⟨d, .tail _ hd, hnames⟩

namespace Log

theorem names_recorded {log : Log} {d : Diagnostic}
    {reference : PendingReference} (h : d.Names reference) :
    (log.recorded d).Names reference := by
  have hplaced : (d.file.isNone && !log.file.isEmpty) = false := by
    rw [h.file]
    rfl
  have herror := isError_recorded log h.isError
  unfold recorded at herror ⊢
  simp only [hplaced, Bool.false_eq_true, if_false] at herror ⊢
  split
  · exact ⟨rfl, h.file, h.line, h.message⟩
  · exact h

theorem exists_names_of_reportAll {ds : List Diagnostic} {d : Diagnostic}
    {reference : PendingReference} (hmem : d ∈ ds) (h : d.Names reference) (log : Log) :
    ∃ found ∈ (log.reportAll ds).diagnostics, found.Names reference := by
  unfold diagnostics
  simp only [List.mem_reverse]
  induction ds generalizing log with
  | nil => cases hmem
  | cons first rest ih =>
    rcases List.mem_cons.1 hmem with rfl | hrest
    · -- A log only grows, so this one is still there at the end.
      obtain ⟨_, hnew, -⟩ := ((log.report d).adds_reportAll
        (P := fun _ => True) fun d (_ : d ∈ rest) => trivial).reported
      refine ⟨log.recorded d, ?_, names_recorded h⟩
      show _ ∈ ((log.report d).reportAll rest).reported
      rw [hnew]
      exact List.mem_append_right _ (.head _)
    · exact ih hrest (log.report first)

end Log

-- ==== programs

/-- What becomes of a reference of a program, with a log of errors. -/
inductive Program.Settles (program : Program) (log : Log) : Reference → Reference → Prop where
  /-- What is resolved stays. -/
  | resolved (symbol : Symbol) : Settles program log (.resolved symbol) (.resolved symbol)
  | found {reference : PendingReference} {symbol : Symbol}
      (h : program.declarations.resolve reference = .found symbol)
      (hoffers : program.Offers reference.kind symbol) :
      Settles program log (.pending reference) (.resolved symbol)
  | missed {reference : PendingReference} {d : Diagnostic}
      (h : ∀ symbol, program.declarations.resolve reference ≠ .found symbol)
      (hlog : d ∈ log.diagnostics) (hnames : d.Names reference) :
      Settles program log (.pending reference) (.pending reference)

namespace Program

theorem references_mapReferences (f : Reference → Reference) (program : Program) :
    (program.mapReferences f).references = program.references.map f := by
  have hown : ∀ type : TypeDecl,
      (type.mapReferences f).ownReferences = type.ownReferences.map f := by
    intro type
    rw [TypeDecl.mapReferences_eq]
    unfold TypeDecl.ownReferences
    rw [List.map_append, List.map_map, List.map_map, List.flatMap_map, List.map_flatMap]
    refine congrArg (_ ++ ·) (List.flatMap_congr fun method _ => ?_)
    exact method.references_mapReferences f
  unfold references
  rw [types_mapReferences, List.map_append, List.flatMap_map, List.map_flatMap]
  show (program.aliases.map _).map _ ++ _ = _
  rw [List.map_map, List.map_map]
  exact congrArg (_ ++ ·) (List.flatMap_congr fun entry _ => hown entry.2)

/-- Every reference of a program is settled, and an error is logged for
each that stays pending. -/
theorem settles_settle (program : Program) (log : Log) :
    ∀ reference ∈ program.references, program.Settles (program.resolve log).2.2 reference
        (program.declarations.settle reference) := by
  intro reference hmem
  cases reference with
  | resolved symbol => exact .resolved symbol
  | pending reference =>
    cases hresolve : program.declarations.resolve reference with
    | found symbol =>
      have hsettle : program.declarations.settle (.pending reference) = .resolved symbol := by
        simp only [Declarations.settle, hresolve]
      rw [hsettle]
      exact .found hresolve (offers_of_resolve hresolve)
    | _ =>
      have hmissed : ∀ symbol, program.declarations.resolve reference ≠ .found symbol := by
        intro symbol hfound
        rw [hresolve] at hfound
        cases hfound
      have hsettle : program.declarations.settle (.pending reference) = .pending reference := by
        simp only [Declarations.settle, hresolve]
      have hlisted : .pending reference ∈ program.references.map program.declarations.settle := by
        rw [← hsettle]
        exact List.mem_map_of_mem hmem
      -- no report was made before, so one of the complaints is for this reference
      rcases Declarations.exists_names_of_complaints ⟨{}⟩ hlisted hmissed
        with hknown | ⟨d, hd, hnames⟩
      · simp [Table.get?] at hknown
      · obtain ⟨found, hfound, hnames⟩ := Log.exists_names_of_reportAll hd hnames log
        rw [hsettle]
        exact .missed hmissed hfound hnames

/-- Resolution settles every reference of a program and changes nothing
else. It counts those that were pending, and where none is left neither
the writer nor lowering ever fails for one. -/
theorem resolve_settles (program : Program) (log : Log) :
    program.Agrees (program.Settles (program.resolve log).2.2) (program.resolve log).1
      ∧ (program.resolve log).2.1.resolved
          + (program.resolve log).2.1.unresolved
        = program.references.countP Reference.isPending
      ∧ (program.resolve log).2.1.unresolved
        = (program.resolve log).1.references.countP Reference.isPending
      ∧ ((program.resolve log).2.1.unresolved = 0 →
        (∀ style name, (program.resolve log).1.toContainer style
          ≠ .error (.unresolved name))
        ∧ ∀ set options method name, (program.resolve log).1.lower set options
            ≠ .error (.unresolved method name)) := by
  let f := program.declarations.settle
  have hcount : (program.resolve log).2.1.unresolved
      = (program.resolve log).1.references.countP Reference.isPending := by
    show _ = (program.mapReferences f).references.countP _
    rw [references_mapReferences]
    rfl
  refine ⟨agrees_mapReferences (program.settles_settle log), ?_, hcount, ?_⟩
  · have hle : (program.references.map f).countP Reference.isPending
        ≤ program.references.countP Reference.isPending := by
      rw [List.countP_map]
      refine List.countP_mono_left fun reference _ hpending => ?_
      cases reference with
      | pending => rfl
      | resolved => exact hpending
    exact Nat.sub_add_cancel hle
  · intro hnone
    have hresolved : ∀ reference ∈ (program.resolve log).1.references,
        reference.isPending = false := by
      intro reference hmem
      rw [hcount, List.countP_eq_zero] at hnone
      exact Bool.eq_false_iff.2 (hnone reference hmem)
    exact ⟨linked_toContainer hresolved, linked_lower hresolved⟩

end Program

end StackAsm
