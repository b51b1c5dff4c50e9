/-
Types as they are read. A type that is not built in takes along a snapshot
of what is visible where it is written, and the scope keeps that snapshot
for the types behind it. So at the end of a statement every type in it has
the snapshot that is kept then (`ScopeStack.Shows`). Whether that is what
is visible there depends on whether the snapshot was still good; this is
looked at for whole parses, not here.
-/
import StackAsm.Proofs.Parse.Reading
import StackAsm.Proofs.Program.Specs

namespace StackAsm

namespace ScopeStack

/-- Whether a reference names a type, not a built-in one, and is to be
looked up inside `typePath` from the snapshot that is kept. -/
structure ShowsTo (stack : ScopeStack) (typePath : Option String)
    (reference : PendingReference) : Prop where
  kind : reference.kind = .type
  plain : isPrimitiveName reference.name = false
  typePath : reference.scope.typePath = typePath
  kept : stack.kept = some reference.scope

/-- Whether a type is built in or to be looked up from the snapshot that
is kept. -/
structure Shows (stack : ScopeStack) (typePath : Option String) (spec : TypeSpec) : Prop where
  builtIn : ∀ symbol, spec.reference = .resolved symbol →
    isPrimitiveName symbol.name = true ∧ symbol = .primitive symbol.name
  pending : ∀ reference, spec.reference = .pending reference → stack.ShowsTo typePath reference

theorem shows_of_primitive {stack : ScopeStack} {typePath : Option String}
    {spec : TypeSpec} {name : String} (h : spec.reference = .resolved (.primitive name))
    (hname : isPrimitiveName name = true) : stack.Shows typePath spec := by
  constructor
  · intro symbol hsymbol
    rw [h] at hsymbol
    cases hsymbol
    exact ⟨hname, rfl⟩
  · intro reference href
    rw [h] at href
    cases href

/-- A type goes on to have the kept snapshot as long as that is kept. -/
theorem Shows.of_kept {stack next : ScopeStack} {typePath : Option String}
    {spec : TypeSpec} (h : stack.Shows typePath spec)
    (hkept : ∀ scope, scope.typePath = typePath →
      stack.kept = some scope → next.kept = some scope) :
    next.Shows typePath spec := by
  refine ⟨h.builtIn, fun reference href => ?_⟩
  have hshows := h.pending reference href
  exact ⟨hshows.kind, hshows.plain, hshows.typePath, hkept _ hshows.typePath hshows.kept⟩

end ScopeStack

namespace Parse

variable {α β : Type} {typePath : Option String} {state next : ParseState}

-- ==== keeping

/-- Whether a step that succeeds keeps a snapshot for `typePath`. -/
structure Holds (typePath : Option String) (step : Parse α) : Prop where
  ok : ∀ {state next : ParseState} {a : α}, step.run state = .ok a next →
    ∀ scope, scope.typePath = typePath →
      state.scope.kept = some scope → next.scope.kept = some scope

theorem Holds.bind {step : Parse α} {f : α → Parse β}
    (hstep : Holds typePath step) (hf : ∀ a, Holds typePath (f a)) :
    Holds typePath (step >>= f) where
  ok := by
    intro state next b h scope hpath hkept
    obtain ⟨a, _, ha, hb⟩ := run_bind_ok_iff.1 h
    exact (hf a).ok hb scope hpath (hstep.ok ha scope hpath hkept)

theorem holds_pure (a : α) : Holds typePath (pure a : Parse α) where
  ok := by
    intro state next b h scope hpath hkept
    obtain ⟨-, rfl⟩ := run_pure_ok_iff.1 h
    exact hkept

theorem holds_get : Holds typePath (get : Parse ParseState) where
  ok := by
    intro state next a h scope hpath hkept
    cases h
    exact hkept

theorem holds_cursor : Holds typePath cursor := holds_get.bind fun _ => holds_pure _

theorem holds_refuse (cause : ParseCause) (line : Nat) (column : Option Nat) :
    Holds typePath (refuse cause line column : Parse α) where
  ok h := (run_throw_ok_iff.1 h).elim

theorem holds_scan (step : Scan α) : Holds typePath (scan step) where
  ok := by
    intro state next a h scope hpath hkept
    rw [run_scan] at h
    split at h
    · cases h
      exact hkept
    · cases h

/-- The snapshot that is handed out is kept. -/
theorem visible_ok {scope : Scope} (h : (visible typePath).run state = .ok scope next) :
    scope.typePath = typePath ∧ next.scope.kept = some scope := by
  unfold visible at h
  cases h
  split
  · rename_i scope hkept
    obtain ⟨hkept, hpath⟩ := Option.filter_eq_some_iff.1 hkept
    exact ⟨eq_of_beq hpath, hkept⟩
  · exact ⟨rfl, rfl⟩

theorem holds_visible : Holds typePath (visible typePath) where
  ok := by
    intro state next a h scope hpath hkept
    have hgood : state.scope.kept? typePath = some scope := by
      refine Option.filter_eq_some_iff.2 ⟨hkept, ?_⟩
      rw [hpath]
      exact beq_self_eq_true _
    unfold visible at h
    rw [run_get_bind, ScopeStack.snapshot, hgood] at h
    cases h
    exact hkept

theorem holds_typeSpec : Holds typePath (typeSpec typePath) := by
  refine (holds_scan _).bind fun _ => holds_cursor.bind fun _ => ?_
  refine (holds_scan _).bind fun _ => ?_
  simp only
  split
  · exact holds_pure _
  · refine holds_visible.bind fun _ => ?_
    exact holds_get.bind fun _ => holds_pure _

/-- A type that was read has the snapshot that is kept behind it. -/
theorem shows_of_typeSpec {spec : TypeSpec} (h : (typeSpec typePath).run state = .ok spec next) :
    next.scope.Shows typePath spec := by
  obtain ⟨_, _, -, h⟩ := run_bind_ok_iff.1 h
  obtain ⟨_, _, -, h⟩ := run_bind_ok_iff.1 h
  obtain ⟨_, _, -, h⟩ := run_bind_ok_iff.1 h
  simp only at h
  split at h
  · rename_i hbuiltIn
    obtain ⟨rfl, -⟩ := run_pure_ok_iff.1 h
    exact ScopeStack.shows_of_primitive rfl hbuiltIn
  · rename_i hplain
    obtain ⟨_, _, hscope, h⟩ := run_bind_ok_iff.1 h
    obtain ⟨hpath, hkept⟩ := visible_ok hscope
    obtain ⟨rfl, rfl⟩ := run_pure_ok_iff.1 h
    refine ⟨nofun, fun _ href => ?_⟩
    cases href
    exact ⟨rfl, Bool.eq_false_iff.2 hplain, hpath, hkept⟩

-- ==== heads

theorem holds_modifier (owner : Declared) (table : Modifiers)
    (attrs : Attributes) : Holds typePath (modifier owner table attrs) := by
  refine holds_cursor.bind fun _ => (holds_scan _).bind fun _ => ?_
  split
  · exact holds_pure _
  · exact holds_refuse ..

theorem holds_methodModifiers (text : List Char) (attrs : Attributes) :
    Holds typePath (methodModifiers text attrs) := by
  induction text generalizing attrs with
  | nil => exact holds_pure attrs
  | cons c text ih =>
    refine (holds_scan _).bind fun _ => holds_cursor.bind fun _ => ?_
    split
    · exact holds_pure attrs
    · exact (holds_modifier ..).bind fun attrs => ih attrs

theorem shows_of_parameters {typePath : String} {text : List Char} {params all : List Variable}
    (h : (parameters typePath text params).run state = .ok all next)
    (hparams : ∀ var ∈ params, state.scope.Shows (some typePath) var.type) :
    ∀ var ∈ all, next.scope.Shows (some typePath) var.type := by
  induction text generalizing params state with
  | nil =>
    obtain ⟨rfl, rfl⟩ := run_pure_ok_iff.1 h
    exact hparams
  | cons c text ih =>
    obtain ⟨_, _, hfirst, h⟩ := run_bind_ok_iff.1 h
    obtain ⟨_, _, hcur, h⟩ := run_bind_ok_iff.1 h
    cases hcur
    obtain ⟨name, _, hsecond, h⟩ := run_bind_ok_iff.1 h
    obtain ⟨_, _, hthird, h⟩ := run_bind_ok_iff.1 h
    obtain ⟨type, fourth, htype, h⟩ := run_bind_ok_iff.1 h
    have hold : ∀ var ∈ params, fourth.scope.Shows (some typePath) var.type := by
      intro var hvar
      exact ((((hparams var hvar).of_kept ((holds_scan _).ok hfirst)).of_kept
        ((holds_scan _).ok hsecond)).of_kept
          ((holds_scan _).ok hthird)).of_kept (holds_typeSpec.ok htype)
    split at h
    case isTrue => cases h
    obtain ⟨_, fifth, hcomma, h⟩ := run_bind_ok_iff.1 h
    have hboth : ∀ var ∈ params ++ [⟨name, type⟩], fifth.scope.Shows (some typePath) var.type := by
      intro var hvar
      refine ScopeStack.Shows.of_kept ?_ ((holds_scan _).ok hcomma)
      rcases List.mem_append.1 hvar with hvar | hvar
      · exact hold var hvar
      · rw [List.mem_singleton.1 hvar]
        exact shows_of_typeSpec htype
    split at h
    · exact ih h hboth
    · obtain ⟨_, hlast, rfl⟩ := run_bind_pure_ok_iff.1 h
      intro var hvar
      exact (hboth var hvar).of_kept ((holds_scan _).ok hlast)

theorem shows_of_methodEnd {typePath name : String} {line : Nat}
    {params : List Variable} {method : Method}
    (h : (methodEnd typePath name line params).run state = .ok method next)
    (hparams : ∀ var ∈ params, state.scope.Shows (some typePath) var.type) :
    ∀ spec ∈ method.signature, next.scope.Shows (some typePath) spec := by
  obtain ⟨-, hsame, -⟩ := methodEnd_ok h
  obtain ⟨_, _, hcur, h⟩ := run_bind_ok_iff.1 h
  cases hcur
  obtain ⟨_, _, hfirst, h⟩ := run_bind_ok_iff.1 h
  obtain ⟨_, second, hsecond, h⟩ := run_bind_ok_iff.1 h
  have hbefore : ∀ var ∈ params, second.scope.Shows (some typePath) var.type := by
    intro var hvar
    exact ((hparams var hvar).of_kept ((holds_methodModifiers ..).ok hfirst)).of_kept
        ((holds_scan _).ok hsecond)
  have hresult : next.scope.Shows (some typePath) method.result
      ∧ ∀ var ∈ params, next.scope.Shows (some typePath) var.type := by
    split at h
    · obtain ⟨result, hthird, rfl⟩ := run_bind_pure_ok_iff.1 h
      refine ⟨shows_of_typeSpec hthird, fun var hvar => ?_⟩
      exact (hbefore var hvar).of_kept (holds_typeSpec.ok hthird)
    · obtain ⟨result, _, hthird, h⟩ := run_bind_ok_iff.1 h
      obtain ⟨rfl, rfl⟩ := run_pure_ok_iff.1 hthird
      obtain ⟨rfl, rfl⟩ := run_pure_ok_iff.1 h
      exact ⟨ScopeStack.shows_of_primitive rfl (by decide), hbefore⟩
  intro spec hspec
  rcases List.mem_cons.1 hspec with rfl | hspec
  · exact hresult.1
  · obtain ⟨var, hvar, rfl⟩ := List.mem_map.1 hspec
    rw [hsame] at hvar
    exact hresult.2 var hvar

/-- The types in the head of a method have the snapshot that is kept
behind it. -/
theorem shows_of_methodHead {typePath : String} {line : Nat} {method : Method}
    (h : (methodHead typePath line).run state = .ok method next) :
    ∀ spec ∈ method.signature, next.scope.Shows (some typePath) spec := by
  obtain ⟨_, _, -, h⟩ := run_bind_ok_iff.1 h
  obtain ⟨_, _, -, h⟩ := run_bind_ok_iff.1 h
  obtain ⟨_, _, -, h⟩ := run_bind_ok_iff.1 h
  obtain ⟨_, _, -, h⟩ := run_bind_ok_iff.1 h
  split at h
  · obtain ⟨params, middle, hparams, h⟩ := run_bind_ok_iff.1 h
    obtain ⟨rfl, -⟩ := run_pure_ok_iff.1 hparams
    exact shows_of_methodEnd h fun _ => nofun
  · obtain ⟨params, middle, hparams, h⟩ := run_bind_ok_iff.1 h
    exact shows_of_methodEnd h (shows_of_parameters hparams fun _ => nofun)

end Parse

end StackAsm
