/-
Aliases in a resolved program. A type that is written with an alias means
what the text of the alias's target means at that place
(`Program.alias_read_at_use`): the target is read again there, by name and
without its brackets. So it means what the alias stands for where the
alias is declared if nothing on the way hides that name, and it has as many
dimensions as are written behind it, not those of the target besides.
-/
import StackAsm.Proofs.Build.Writing
import StackAsm.Proofs.Parse.Aliases
import StackAsm.Proofs.Parse.Isolation
import StackAsm.Proofs.Program.Lookup

namespace StackAsm

/-- Whether a type is an array of another one, with so many dimensions
more; with none it is that type. -/
def TypeSpec.IsArrayOf (spec element : TypeSpec) (dims : Nat) : Prop :=
  spec.reference = element.reference
    ∧ spec.dims.toNat = element.dims.toNat + dims

namespace Program

open ParseState

variable {set : InstructionSet} {source : String} {log : Log} {spec : TypeSpec}

-- ==== records

/-- The record of an alias in a program that was read. -/
theorem aliases_parse
    (hparse : (({} : Program).parse set source log).log.errorCount
      = log.errorCount) {n : Nat} (hn : n ≤ source.toList.length)
    {name : String} {target : TypeSpec}
    (halias : DeclaresAlias set (.ofSource {} source log) n name target) :
    (({} : Program).parse set source log).program.aliases[
        (run set n (.ofSource {} source log)).aliases.length]?
      = some ⟨(run set n (.ofSource {} source log)).scope.qualify name,
        target⟩ := by
  have hempty := sound_empty set
  have hstart := coherent_ofSource source log hempty.linkable hempty.listed
  obtain ⟨hread, hblocks⟩ := blocks_toEnd hempty.linkable hempty.listed hparse
  have hprogram : ((ofSource {} source log).toEnd set).program.aliases = [] :=
    program_aliases_run hstart hread (Nat.le_refl _)
  rw [parse_of_blocks hblocks]
  show (_ ++ List.reverse _)[_]? = _
  rw [hprogram, List.nil_append]
  exact record_of_declares hstart hread (Nat.lt_succ_of_le hn) halias

-- ==== types

/-- In a program that is resolved without errors every type is settled. -/
theorem settled_of_resolve {program : Program}
    (hresolve : (program.resolve log).2.2.errorCount = log.errorCount)
    (hspec : spec ∈ program.specs) :
    (program.declarations.settle spec.reference).isPending = false :=
  Declarations.settled_of_complaints
    (Log.eq_nil_of_reportAll (Declarations.isError_complaints _ _ _)
      hresolve) _ (mem_references_of_specs hspec)

/-- A type is settled to what it means where it is written. -/
theorem settle_of_written {table : Declarations} {stack : ScopeStack}
    {typePath : Option String} (hwritten : stack.Written typePath spec)
    (hsettled : (table.settle spec.reference).isPending = false) :
    ∃ symbol, table.typeWritten spec.reference.name (stack.visible typePath)
        = .found symbol
      ∧ spec.mapReference table.settle = ⟨.resolved symbol, spec.dims⟩ := by
  obtain ⟨reference, _⟩ := spec
  cases reference with
  | resolved symbol =>
    obtain ⟨hname, hsymbol⟩ := hwritten.builtIn symbol rfl
    refine ⟨symbol, ?_, rfl⟩
    show table.typeWritten symbol.name _ = _
    unfold Declarations.typeWritten
    rw [if_pos hname, ← hsymbol]
  | pending reference =>
    obtain ⟨hkind, -, hscope⟩ := hwritten.pending reference rfl
    obtain ⟨symbol, hfound, hsettle⟩ := Declarations.found_of_settle hsettled
    rw [Declarations.resolve_type hkind, hscope] at hfound
    refine ⟨symbol, hfound, ?_⟩
    unfold TypeSpec.mapReference
    rw [hsettle]

/-- A type that is written with an alias means what the text of the target
means there. -/
theorem typeWritten_of_nearest {table : Declarations} {start : ParseState}
    {before : List BranchFixes} {rounds n later : Nat} (hstart : start.Coherent before)
    (herrors : (run set rounds start).log.errorCount
      = start.log.errorCount) (hlater : later < rounds) {name : String} {target : TypeSpec}
    (halias : NearestAlias set start n later name target)
    (hwrites : Writes set start later spec) {reference : PendingReference}
    (href : spec.reference = .pending reference) (hname : reference.name = name) :
    table.typeWritten reference.name reference.scope
      = table.typeNamed target.reference.name reference.scope := by
  have hn := Nat.lt_trans halias.before hlater
  obtain ⟨hword, -⟩ := scope_of_declares hstart herrors hn halias.declares
  obtain ⟨_, hwritten⟩ := scope_of_writes hstart herrors hlater hwrites
  obtain ⟨-, hplain, hscope⟩ := hwritten.pending reference href
  rw [hname] at hplain ⊢
  apply Declarations.typeWritten_of_alias hword.isPart hplain
  rw [hscope]
  exact halias.find? hstart herrors (Nat.le_of_lt hlater)

theorem dims_add_iff {dims more : UInt8} : more.toNat = dims.toNat + more.toNat ↔ dims = 0 := by
  constructor
  · intro h
    apply UInt8.toNat_inj.1
    show dims.toNat = 0
    omega
  · intro h
    rw [h]
    exact (Nat.zero_add _).symm

/-- In a text without errors, a type that is written with an alias means
what the text of the alias's target means there, and has the dimensions
that are written behind it. That is what the record of the alias stands
for as long as nothing hides the name, and an array of it if the target is
not an array itself. -/
theorem alias_read_at_use
    (hparse : (({} : Program).parse set source log).log.errorCount
      = log.errorCount) {resolveLog : Log}
    (hresolve : ((({} : Program).parse set source log).program.resolve
      resolveLog).2.2.errorCount = resolveLog.errorCount)
    {n later : Nat} {name : String} {target : TypeSpec}
    (halias : NearestAlias set (.ofSource {} source log) n later name target)
    {spec : TypeSpec} (hwrites : Writes set (.ofSource {} source log) later spec)
    {reference : PendingReference} (hreference : spec.reference = .pending reference)
    (hname : reference.name = name) {place : Nat}
    (hplace : (({} : Program).parse set source log).program.specs[place]?
      = some spec) :
    let read := (({} : Program).parse set source log).program
    let table := read.declarations
    let resolved := (read.resolve resolveLog).1
    let atAlias := run set n (.ofSource {} source log)
    ∃ meant found, resolved.aliases[atAlias.aliases.length]?
        = some ⟨atAlias.scope.qualify name, ⟨.resolved meant, target.dims⟩⟩
      ∧ resolved.specs[place]? = some ⟨.resolved found, spec.dims⟩
      ∧ table.typeWritten target.reference.name (atAlias.scope.visible none) = .found meant
      ∧ table.typeNamed target.reference.name reference.scope = .found found
      ∧ (table.Carries target.reference.name (atAlias.scope.visible none)
        reference.scope → found = meant)
      ∧ (TypeSpec.IsArrayOf ⟨.resolved found, spec.dims⟩
          ⟨.resolved meant, target.dims⟩ spec.dims.toNat
        ↔ found = meant ∧ target.dims = 0) := by
  have hempty := sound_empty set
  have hstart := coherent_ofSource source log hempty.linkable hempty.listed
  obtain ⟨hread, -⟩ := blocks_toEnd hempty.linkable hempty.listed hparse
  have hlater := Nat.lt_succ_of_le hwrites.le
  have hn := Nat.lt_trans halias.before hlater
  have hrecord := aliases_parse hparse (Nat.le_of_lt_succ hn) halias.declares
  intro read table resolved atAlias
  -- the target, where the alias is declared
  obtain ⟨-, htarget⟩ := scope_of_declares hstart hread hn halias.declares
  have hmem : target ∈ read.specs := List.mem_append_left _
    (List.mem_map.2 ⟨_, List.mem_of_getElem? hrecord, rfl⟩)
  obtain ⟨meant, hmeant, htargetSettled⟩ :=
    settle_of_written htarget (settled_of_resolve hresolve hmem)
  -- the type, where it is written
  obtain ⟨typePath, hwritten⟩ := scope_of_writes hstart hread hlater hwrites
  obtain ⟨-, -, hscope⟩ := hwritten.pending reference hreference
  obtain ⟨found, hfound, hspecSettled⟩ := settle_of_written hwritten
    (settled_of_resolve hresolve (List.mem_of_getElem? hplace))
  rw [← hscope, hreference] at hfound
  have hfound := (typeWritten_of_nearest hstart hread hlater halias
    hwrites hreference hname).symm.trans hfound
  refine ⟨meant, found, ?_, ?_, hmeant, hfound, ?_, ?_⟩
  · show (read.aliases.map _)[_]? = _
    rw [List.getElem?_map, hrecord, ← htargetSettled]
    rfl
  · show (read.mapReferences _).specs[place]? = _
    rw [specs_mapReferences, List.getElem?_map, hplace, ← hspecSettled]
    rfl
  · intro hsame
    rw [Declarations.typeNamed_of_carries hsame, hmeant] at hfound
    cases hfound
    rfl
  · unfold TypeSpec.IsArrayOf
    rw [Reference.resolved.injEq, dims_add_iff]

end Program

-- ==== examples

namespace Sample

open ParseState Program

/-- An alias between two others of its name: one that it hides, and one
whose block is closed again. -/
def aliased : String :=
  ".namespace N \x7b\n.alias A = i32\n.type T \x7b\n\x7d\n.alias A = T\n"
    ++ ".namespace M \x7b\n.alias A = str\n\x7d\n"
    ++ ".type U \x7b\n.field f: A[]\n\x7d\n\x7d\n"

def aliasScope : Scope := ⟨"N", none, [], [("A", "i32")]⟩

def aliasTarget : TypeSpec := ⟨.pending ⟨"T", .type, aliasScope, ⟨"", 5, some 12⟩⟩, 0⟩

def aliasUse : PendingReference :=
  ⟨"A", .type, ⟨"N", some "N.U", [], [("A", "T"), ("A", "i32")]⟩, ⟨"", 10, some 11⟩⟩

/-- What comes of the sample: the rounds that declare and use the alias,
and the program that is read. -/
theorem read_aliased :
    let start := ParseState.ofSource {} aliased {}
    let parsed := ({} : Program).parse .standard aliased {}
    NearestAlias .standard start 4 9 "A" aliasTarget
      ∧ Writes .standard start 9 ⟨.pending aliasUse, 1⟩
      ∧ parsed.program.declarations.Carries "T" aliasScope aliasUse.scope
      ∧ parsed.log.errorCount = 0 ∧ (parsed.program.resolve {}).2.2.errorCount = 0
      ∧ parsed.program.specs[3]? = some ⟨.pending aliasUse, 1⟩
      ∧ (run .standard 4 start).aliases.length = 1
      ∧ (run .standard 4 start).scope.qualify "A" = "N.A"
      ∧ (run .standard 4 start).scope.visible none = aliasScope := by
  refine ⟨nearestAlias_of_check ?_, ?_, .inr ⟨?_, ⟨["N.U"], ?_⟩, ⟨[], rfl, nofun⟩⟩, ?_⟩
  · decide +kernel
  · unfold Writes
    decide +kernel
  all_goals decide +kernel

/-- Here the field is an array of what the alias stands for. -/
theorem alias_read_at_use_aliased :
    let read := (({} : Program).parse .standard aliased {}).program
    NearestAlias .standard (.ofSource {} aliased {}) 4 9 "A" aliasTarget
      ∧ Writes .standard (.ofSource {} aliased {}) 9 ⟨.pending aliasUse, 1⟩
      ∧ ∃ meant found, (read.resolve {}).1.aliases[1]? = some ⟨"N.A", ⟨.resolved meant, 0⟩⟩
        ∧ (read.resolve {}).1.specs[3]? = some ⟨.resolved found, 1⟩
        ∧ TypeSpec.IsArrayOf ⟨.resolved found, 1⟩ ⟨.resolved meant, 0⟩ 1 := by
  intro read
  obtain ⟨hnearest, hwrites, hcarries, hparse, hresolve, hplace, hlength, hname, hscope⟩ :=
    read_aliased
  obtain ⟨meant, found, halias, hspec, -, -, hsame, harray⟩ :=
    alias_read_at_use hparse hresolve hnearest hwrites rfl rfl hplace
  rw [hlength, hname] at halias
  rw [hscope] at hsame
  exact ⟨hnearest, hwrites, meant, found, halias, hspec, harray.2 ⟨hsame hcarries, rfl⟩⟩

/-- An alias of an array, used where another type has the name of its
target. -/
def shadowed : String :=
  ".namespace N \x7b\n.type T \x7b\n\x7d\n.alias A = T[]\n"
    ++ ".namespace M \x7b\n.type T \x7b\n\x7d\n"
    ++ ".type U \x7b\n.field f: A\n\x7d\n\x7d\n\x7d\n"

/-- The alias stands for an array of `N.T`, and the field that is declared
with it is a single `N.M.T`. -/
theorem alias_loses_dimensions_and_scope :
    let start := ParseState.ofSource {} shadowed {}
    let parsed := ({} : Program).parse .standard shadowed {}
    ∃ target spec reference, NearestAlias .standard start 3 8 "A" target
      ∧ Writes .standard start 8 spec ∧ spec.reference = .pending reference ∧ reference.name = "A"
      ∧ spec.dims = 0 ∧ parsed.program.specs[1]? = some spec ∧ parsed.log.errorCount = 0
      ∧ (parsed.program.resolve {}).2.2.errorCount = 0 ∧ (parsed.program.resolve {}).1.aliases[0]?
        = some ⟨"N.A", ⟨.resolved ⟨.type, "N.T"⟩, 1⟩⟩ ∧ (parsed.program.resolve {}).1.specs[1]?
        = some ⟨.resolved ⟨.type, "N.M.T"⟩, 0⟩ := by
  refine ⟨⟨.pending ⟨"T", .type, ⟨"N", none, [], []⟩, ⟨"", 4, some 12⟩⟩, 1⟩,
    ⟨.pending ⟨"A", .type, ⟨"N.M", some "N.M.U", [], [("A", "T")]⟩, ⟨"", 9, some 11⟩⟩, 0⟩, _,
    nearestAlias_of_check (by decide +kernel), ?_, rfl, rfl, rfl, ?_⟩
  · unfold Writes
    decide +kernel
  · decide +kernel

end Sample

end StackAsm
