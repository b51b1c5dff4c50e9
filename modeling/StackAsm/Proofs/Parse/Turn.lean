/-
What one statement can do. `ParseState.Effect` lists it case by case: how
a statement that succeeds changes the state once it is read, under which
conditions, which braces of the text it passes, and what a search for
labels finds in it. Every statement that succeeds is reading followed by
one of these cases (`turn_of_statement`). Whatever is invariant along a
parse is shown by going through them.
-/
import StackAsm.Parse.File
import StackAsm.Proofs.Parse.Silence
import StackAsm.Proofs.Parse.Snapshot

namespace StackAsm

namespace ParseState

variable {t : OpenType} {outer : List Block}

-- ==== places

/-- Whether statements are read outside every type. -/
def InSpace (state : ParseState) : Prop := ∀ block ∈ state.blocks.head?, ∃ line, block = .space line

/-- Whether the innermost block is that type, with no method open. -/
structure InType (state : ParseState) (t : OpenType) (outer : List Block) : Prop where
  blocks : state.blocks = .type t :: outer
  method : t.method = none

/-- Whether instructions of that method are read. -/
structure InMethod (state : ParseState) (t : OpenType) (outer : List Block)
    (m : OpenMethod) : Prop where
  blocks : state.blocks = .type t :: outer
  method : t.method = some m
  localsLine : m.localsLine = none

/-- Whether locals of that method are read. -/
structure InLocals (state : ParseState) (t : OpenType) (outer : List Block)
    (m : OpenMethod) : Prop where
  blocks : state.blocks = .type t :: outer
  method : t.method = some m
  localsLine : m.localsLine.isSome = true

/-- The state with the innermost type changed. -/
def putType (state : ParseState) (t : OpenType) (outer : List Block) :
    ParseState := { state with blocks := .type t :: outer }

-- ==== cases

/-- What a statement does once it is read, over those braces; `text` is
what was ahead before. -/
inductive Effect (set : InstructionSet) (text : List Char)
    (state : ParseState) : List Brace → ParseState → Prop where
  | close (hopen : state.blocks ≠ []) (htext : text = '\x7d' :: state.cursor.rest) :
      Effect set text state [.closing] state.closeBlock
  | noteImport (wanted : Import) (hspace : state.InSpace) : Effect set text state [] { state with
        output := { state.output with
          imports := wanted :: state.output.imports } }
  | noteUsing (path : String) (hspace : state.InSpace) : Effect set text state [] { state with
        scope := state.scope.addImport path }
  | noteAlias (name : String) (target : TypeSpec)
      (hspace : state.InSpace) (hname : Text.IsWord name) (hshows : state.scope.Shows none target) :
      Effect set text state [] { state with
        scope := state.scope.addAlias name target.reference.name
        aliases := ⟨state.scope.qualify name, target⟩ :: state.aliases }
  | noteExternal (path : String) (hspace : state.InSpace) : Effect set text state [] { state with
        program := state.program.addExternal path }
  | openSpace {scope : ScopeStack} (rooted : Bool) (name : String)
      (line : Nat) (hspace : state.InSpace)
      (henter : (if rooted then state.scope.enterRooted name
        else state.scope.enter name) = .ok scope) :
      Effect set text state [.opening] { state with
        scope
        blocks := .space line :: state.blocks }
  | openType (name : String) (attrs : Attributes) (line : Nat)
      (hplace : state.InSpace ∨ ∃ t outer, state.InType t outer) (hname : Text.IsWord name)
      (hdeclared : Parse.fullName state name ∉ state.declared)
      (hunknown : state.program.find? (Parse.fullName state name) = none) :
      Effect set text state [.opening] { state with
        declared := Parse.fullName state name :: state.declared
        blocks := .type ⟨{ name, attrs, line }, Parse.fullName state name,
          state.scope.path, none⟩ :: state.blocks }
  | addField {t : OpenType} {outer : List Block} (field : Field) (htype : state.InType t outer)
      (hfresh : t.decl.field? field.name = none)
      (hshows : state.scope.Shows (some t.full) field.type) :
      Effect set text state [] (state.putType { t with
        decl := { t.decl with fields := t.decl.fields ++ [field] } } outer)
  | addMethod {t : OpenType} {outer : List Block} (method : Method)
      (htype : state.InType t outer) (hhead : Parse.IsHead method)
      (hbodiless : method.attrs.isBodiless = true) (hfresh : t.decl.method? method.name = none)
      (hshows : ∀ spec ∈ method.signature, state.scope.Shows (some t.full) spec) :
      Effect set text state [] { state.putType { t with
          decl := { t.decl with methods := t.decl.methods ++ [method] } }
          outer with
        output := { state.output with
          methods := state.output.methods + 1 } }
  | openMethod {t : OpenType} {outer : List Block} (method : Method)
      (htype : state.InType t outer) (hhead : Parse.IsHead method)
      (hfresh : t.decl.method? method.name = none)
      (hbrace : Passes [] text ('\x7b' :: state.cursor.rest))
      (hshows : ∀ spec ∈ method.signature, state.scope.Shows (some t.full) spec) :
      Effect set text state [.opening] (state.putType { t with
        method := some (.start method state.cursor.labelsAhead) } outer)
  | openLocals {t : OpenType} {outer : List Block} {m : OpenMethod}
      (line : Nat) (hmethod : state.InMethod t outer m)
      (hseen : m.localsSeen = false) (hempty : m.instructions = [])
      (hbrace : Silent text ('\x7b' :: state.cursor.rest)) :
      Effect set text state [.opening] (state.putType { t with
        method := some { m with
          localsSeen := true
          localsLine := some line } } outer)
  | passComma {t : OpenType} {outer : List Block} {m : OpenMethod}
      (hlocals : state.InLocals t outer m)
      (hstep : InStep text state.cursor.rest) : Effect set text state [] state
  | addLocal {t : OpenType} {outer : List Block} {m : OpenMethod}
      (var : Variable) (hlocals : state.InLocals t outer m)
      (hfresh : m.locals.any (·.name == var.name) = false)
      (hroom : m.locals.length < Parse.localLimit) (hstep : InStep text state.cursor.rest)
      (hshows : state.scope.Shows (some t.full) var.type) :
      Effect set text state [] (state.putType { t with
        method := some (m.setLocals (m.locals ++ [var])) } outer)
  | placeLabel {t : OpenType} {outer : List Block}
      {m placed : OpenMethod} (name : String) (line : Nat) (hmethod : state.InMethod t outer m)
      (hplaced : m.placeLabel name line = .ok placed)
      (hlabel : LabelAt text name state.cursor.rest) :
      Effect set text state [] (state.putType { t with
        method := some placed } outer)
  | addInstruction {t : OpenType} {outer : List Block} {m : OpenMethod}
      {form : Form} {operands : List Operand} {implicit : List String}
      {log : Log} (scope : Scope) (args : List Argument) (line : Nat)
      (hmethod : state.InMethod t outer m) (hform : form ∈ set.forms)
      (hread : (form.read (Parse.argumentContext scope state.log.file line m) args).run []
          = .ok operands implicit)
      (hlog : log = state.log ∨ ∃ (mnemonic : String) (column : Nat)
        (warning : Diagnostic), (Choice.ofForms
          (Parse.argumentContext scope state.log.file line m) args
          (set.candidates mnemonic args.length)).warning? line column = some warning
        ∧ log = state.log.report warning) (hsilent : Silent text state.cursor.rest)
      (hpath : scope.typePath = some t.full) (hkept : state.scope.kept = some scope) :
      Effect set text state [] { state.putType { t with
          method := some (m.addInstruction ⟨form.opcode, operands, line⟩ implicit) } outer with
        log }

/-- One statement: it is read over those braces, then it has its
effect. -/
def Turn (set : InstructionSet) (state : ParseState)
    (braces : List Brace) (next : ParseState) : Prop :=
  ∃ read, Takes braces state read
    ∧ Effect set state.cursor.rest read braces next

-- ==== reading

variable {state next : ParseState}

theorem Moved.blocks (h : state.Moved next) : next.blocks = state.blocks := by
  obtain ⟨_, _, -, rfl⟩ := h
  rfl

theorem Moved.log (h : state.Moved next) : next.log = state.log := by
  obtain ⟨_, _, -, rfl⟩ := h
  rfl

theorem InSpace.moved (h : state.InSpace) (hmoved : state.Moved next) : next.InSpace := by
  unfold InSpace
  rw [hmoved.blocks]
  exact h

theorem InType.moved (h : state.InType t outer) (hmoved : state.Moved next) :
    next.InType t outer := ⟨hmoved.blocks.trans h.blocks, h.method⟩

theorem InMethod.moved {m : OpenMethod} (h : state.InMethod t outer m)
    (hmoved : state.Moved next) : next.InMethod t outer m :=
  ⟨hmoved.blocks.trans h.blocks, h.method, h.localsLine⟩

theorem InLocals.moved {m : OpenMethod} (h : state.InLocals t outer m)
    (hmoved : state.Moved next) : next.InLocals t outer m :=
  ⟨hmoved.blocks.trans h.blocks, h.method, h.localsLine⟩

end ParseState

namespace Parse

open ParseState

variable {set : InstructionSet} {state middle next : ParseState}
  {line : Nat} {a : Unit} {t : OpenType} {outer : List Block} {m : OpenMethod}

-- ==== declarations

theorem openType_ok {name : String} {attrs : Attributes}
    (h : (openType name attrs line).run middle = .ok a next) :
    fullName middle name ∉ middle.declared
      ∧ middle.program.find? (fullName middle name) = none
      ∧ next = { middle with
        declared := fullName middle name :: middle.declared
        blocks := .type ⟨{ name, attrs, line }, fullName middle name,
          middle.scope.path, none⟩ :: middle.blocks } := by
  unfold openType at h
  rw [run_get_bind] at h
  simp only at h
  split at h
  · cases h
  · rename_i hfresh
    rw [Bool.or_eq_true, not_or, List.contains_eq_mem, decide_eq_true_iff,
      Option.not_isSome_iff_eq_none] at hfresh
    cases h
    exact ⟨hfresh.1, hfresh.2, rfl⟩

theorem turn_of_typeDeclaration (hplace : state.InSpace ∨ ∃ t outer, state.InType t outer)
    (hstart : Takes [] state middle) (h : (typeDeclaration line).run middle = .ok a next) :
    Turn set state [.opening] next := by
  obtain ⟨name, _, hname, h⟩ := run_bind_ok_iff.1 h
  obtain ⟨hfirst, hword⟩ := takes_word hname
  obtain ⟨_, second, hcolon, h⟩ := run_bind_ok_iff.1 h
  have hsecond := hfirst.toReads.trans ((quiet_eat rfl).ok hcolon)
  -- with or without modifiers a brace is expected next
  have hbrace : ∃ attrs third, Reads [] second third ∧ EStateM.run (do
        scan (Scan.expect '\x7b')
        openType name attrs line : Parse Unit) third = .ok a next := by
    split at h
    · obtain ⟨_, _, hcur, h⟩ := run_bind_ok_iff.1 h
      obtain ⟨attrs, third, hattrs, h⟩ := run_bind_ok_iff.1 h
      exact ⟨attrs, third, (quiet_cursor.ok hcur).trans ((quiet_typeModifiers ..).ok hattrs), h⟩
    · obtain ⟨attrs, third, hattrs, h⟩ := run_bind_ok_iff.1 h
      exact ⟨attrs, third, (quiet_pure _).ok hattrs, h⟩
  obtain ⟨attrs, third, hthird, h⟩ := hbrace
  obtain ⟨_, read, hread, h⟩ := run_bind_ok_iff.1 h
  have htakes := hstart.trans ((hsecond.trans hthird).trans
    (takes_expect hread passes_opening).toReads)
  obtain ⟨hdeclared, hunknown, rfl⟩ := openType_ok h
  have hplace : read.InSpace ∨ ∃ t outer, read.InType t outer := by
    rcases hplace with hspace | ⟨t, outer, htype⟩
    · exact .inl (hspace.moved htakes.moved)
    · exact .inr ⟨t, outer, htype.moved htakes.moved⟩
  exact ⟨read, htakes, .openType name attrs line hplace hword hdeclared hunknown⟩

theorem turn_of_namespaceStatement (hspace : state.InSpace)
    (h : namespaceStatement.run state = .ok a next) :
    ∃ braces, Turn set state braces next := by
  obtain ⟨_, _, hcur, h⟩ := run_bind_ok_iff.1 h
  cases hcur
  obtain ⟨_, _, hfound, h⟩ := run_bind_ok_iff.1 h
  split at h
  case h_1 => cases h
  have htakes := takes_directive? hfound
  split at h
  · -- `.import`
    obtain ⟨path, read, hpath, h⟩ := run_bind_ok_iff.1 h
    have hread := (quiet_scan Scan.skips_passes.string).ok hpath
    cases h
    have htakes := htakes.trans hread
    exact ⟨[], read, htakes, .noteImport _ (hspace.moved htakes.moved)⟩
  · -- `.using`
    obtain ⟨path, read, hpath, h⟩ := run_bind_ok_iff.1 h
    have hread := (quiet_scan Scan.skips_passes.dotted).ok hpath
    cases h
    have htakes := htakes.trans hread
    exact ⟨[], read, htakes, .noteUsing path (hspace.moved htakes.moved)⟩
  · -- `.alias`
    obtain ⟨name, second, hname, h⟩ := run_bind_ok_iff.1 h
    obtain ⟨_, third, hequals, h⟩ := run_bind_ok_iff.1 h
    obtain ⟨target, read, htarget, h⟩ := run_bind_ok_iff.1 h
    have hread := ((quiet_word.ok hname).trans ((quiet_expect rfl).ok hequals)).trans
      ((quiet_typeSpec _).ok htarget)
    cases h
    have htakes := htakes.trans hread
    exact ⟨[], read, htakes, .noteAlias name target (hspace.moved htakes.moved) (takes_word hname).2
      (shows_of_typeSpec htarget)⟩
  · -- `.extern`
    obtain ⟨path, read, hpath, h⟩ := run_bind_ok_iff.1 h
    have hread := (quiet_scan Scan.skips_passes.dotted).ok hpath
    cases h
    have htakes := htakes.trans hread
    exact ⟨[], read, htakes, .noteExternal path (hspace.moved htakes.moved)⟩
  · -- `.namespace`
    have hrooted : Scan.Braceless (Scan.eatText [':', ':']) := Scan.braceless_eatText rfl
    obtain ⟨rooted, second, hcolons, h⟩ := run_bind_ok_iff.1 h
    obtain ⟨name, third, hname, h⟩ := run_bind_ok_iff.1 h
    obtain ⟨_, read, hbrace, h⟩ := run_bind_ok_iff.1 h
    have hread := (((quiet_scan hrooted).ok hcolons).trans
      ((quiet_scan Scan.skips_passes.dotted).ok hname)).trans
      (takes_expect hbrace passes_opening).toReads
    unfold enterNamespace at h
    rw [run_get_bind] at h
    split at h
    · rename_i scope henter
      cases h
      have htakes := htakes.trans hread
      exact ⟨[.opening], read, htakes, .openSpace rooted name _ (hspace.moved htakes.moved) henter⟩
    · cases h
  · exact ⟨[.opening], turn_of_typeDeclaration (.inl hspace) htakes h⟩
  · cases h

-- ==== members

theorem turn_of_fieldDeclaration (htype : state.InType t outer) (hstart : Takes [] state middle)
    (h : (fieldDeclaration t outer line).run middle = .ok a next) :
    Turn set state [] next := by
  obtain ⟨_, _, hcur, h⟩ := run_bind_ok_iff.1 h
  cases hcur
  obtain ⟨named, _, hnamed, h⟩ := run_bind_ok_iff.1 h
  obtain ⟨_, _, hcolon, h⟩ := run_bind_ok_iff.1 h
  obtain ⟨type, read, hspec, h⟩ := run_bind_ok_iff.1 h
  have hread := (((quiet_fieldName ..).ok hnamed).trans
    ((quiet_expect rfl).ok hcolon)).trans ((quiet_typeSpec _).ok hspec)
  split at h
  · cases h
  · rename_i hfresh
    cases h
    rw [Option.not_isSome_iff_eq_none] at hfresh
    have htakes := hstart.trans hread
    exact ⟨read, htakes, .addField ⟨named.1, named.2, type, line⟩
      (htype.moved htakes.moved) hfresh (shows_of_typeSpec hspec)⟩

theorem turn_of_methodDeclaration (htype : state.InType t outer) (hstart : Takes [] state middle)
    (h : (methodDeclaration t outer line).run middle = .ok a next) :
    ∃ braces, Turn set state braces next := by
  obtain ⟨method, first, hmethod, h⟩ := run_bind_ok_iff.1 h
  have hhead := isHead_of_methodHead hmethod
  have hshows : ∀ spec ∈ method.signature,
      first.scope.Shows (some t.full) spec := shows_of_methodHead hmethod
  have hstart := hstart.trans ((quiet_methodHead ..).ok hmethod)
  split at h
  · cases h
  rename_i hfresh
  rw [Option.not_isSome_iff_eq_none] at hfresh
  obtain ⟨_, second, htrivia, h⟩ := run_bind_ok_iff.1 h
  obtain ⟨cur, _, hcur, h⟩ := run_bind_ok_iff.1 h
  cases hcur
  have hread := hstart.trans (quiet_skipTrivia.ok htrivia)
  have hshows : ∀ spec ∈ method.signature,
      second.scope.Shows (some t.full) spec := fun spec hspec =>
    (hshows spec hspec).of_kept ((holds_scan _).ok htrivia)
  simp only at h
  split at h
  · rename_i hbodiless
    split at h
    · cases h
    · cases h
      exact ⟨[], second, hread, .addMethod method
        (htype.moved hread.moved) hhead hbodiless hfresh hshows⟩
  · split at h
    · obtain ⟨_, read, hbrace, h⟩ := run_bind_ok_iff.1 h
      obtain ⟨cur, _, hcur, h⟩ := run_bind_ok_iff.1 h
      cases hcur
      cases h
      have htakes := hread.trans (takes_expect hbrace passes_opening).toReads
      have hopening := hread.passes.trans (Scan.passes_before (scan_ok hbrace).1)
      exact ⟨[.opening], read, htakes, .openMethod method
        (htype.moved htakes.moved) hhead hfresh hopening fun spec hspec =>
          (hshows spec hspec).of_kept ((holds_scan _).ok hbrace)⟩
    · cases h

theorem turn_of_typeStatement (htype : state.InType t outer)
    (h : (typeStatement t outer).run state = .ok a next) :
    ∃ braces, Turn set state braces next := by
  obtain ⟨_, _, hcur, h⟩ := run_bind_ok_iff.1 h
  cases hcur
  obtain ⟨_, _, hfound, h⟩ := run_bind_ok_iff.1 h
  split at h
  case h_1 => cases h
  have htakes := takes_directive? hfound
  split at h
  · exact ⟨[], turn_of_fieldDeclaration htype htakes h⟩
  · exact turn_of_methodDeclaration htype htakes h
  · exact ⟨[.opening], turn_of_typeDeclaration (.inr ⟨t, outer, htype⟩) htakes h⟩
  · cases h

-- ==== bodies

theorem turn_of_localsBlock (hmethod : state.InMethod t outer m)
    (h : (localsBlock t outer m).run state = .ok a next) :
    Turn set state [.opening] next := by
  obtain ⟨_, _, hcur, h⟩ := run_bind_ok_iff.1 h
  cases hcur
  obtain ⟨_, _, hdot, h⟩ := run_bind_ok_iff.1 h
  obtain ⟨_, second, hword, h⟩ := run_bind_ok_iff.1 h
  have hread := (takes_expect hdot (Scan.passes_plain rfl)).trans (quiet_word.ok hword)
  split at h
  case isTrue => cases h
  split at h
  case isTrue => cases h
  rename_i hseen
  split at h
  case isFalse => cases h
  rename_i hempty
  -- the mark left before the brace is written over behind it
  rw [putMethod, run_modify_bind] at h
  obtain ⟨_, _, hbrace, h⟩ := run_bind_ok_iff.1 h
  obtain ⟨hrun, hmoved⟩ := scan_ok hbrace
  obtain ⟨cursor, kept, hkept, rfl⟩ := hmoved
  cases h
  have htakes : Takes [.opening] state
      { second with cursor, scope := { second.scope with kept } } :=
    hread.trans ⟨⟨cursor, kept, hkept, rfl⟩,
      Scan.passes_of_eat (Scan.eat_of_expect hrun) (passes_opening _)⟩
  have hsilent := ((silent_scan (Scan.skips_silent.expect rfl rfl) hdot).trans
    (silent_scan Scan.skips_silent.word hword)).trans (Scan.silent_before hrun)
  exact ⟨_, htakes, .openLocals _ (hmethod.moved htakes.moved)
    (Bool.eq_false_iff.2 hseen) (List.isEmpty_iff.1 hempty) hsilent⟩

theorem turn_of_localsEntry (hlocals : state.InLocals t outer m)
    (h : (localsEntry t outer m).run state = .ok a next) :
    Turn set state [] next := by
  obtain ⟨comma, first, hcomma, h⟩ := run_bind_ok_iff.1 h
  have hsilent := silent_scan (Scan.skips_silent.eat rfl rfl) hcomma
  cases comma with
  | true =>
    obtain ⟨-, rfl⟩ := run_pure_ok_iff.1 h
    have htakes := takes_eat hcomma (Scan.passes_plain rfl)
    exact ⟨first, htakes, .passComma (hlocals.moved htakes.moved) hsilent.inStep⟩
  | false =>
    have hfirst := (quiet_eat rfl).ok hcomma
    obtain ⟨_, _, hcur, h⟩ := run_bind_ok_iff.1 h
    cases hcur
    obtain ⟨name, _, hname, h⟩ := run_bind_ok_iff.1 h
    obtain ⟨_, _, hcolon, h⟩ := run_bind_ok_iff.1 h
    obtain ⟨type, read, htype, h⟩ := run_bind_ok_iff.1 h
    obtain ⟨hsecond, -⟩ := takes_word hname
    have hread := hsecond.trans (((quiet_expect rfl).ok hcolon).trans ((quiet_typeSpec _).ok htype))
    split at h
    case isTrue => cases h
    rename_i hfresh
    split at h
    case isTrue => cases h
    rename_i hroom
    cases h
    have htakes := hfirst.takes hread
    have hmark := (hsilent.trans (silent_scan Scan.skips_silent.word
      hname)).trans (Scan.silent_before (scan_ok hcolon).1)
    have hstep := (hmark.inStep.trans (inStep_colon _)).trans (silent_typeSpec _ htype).inStep
    exact ⟨read, htakes, .addLocal ⟨name, type⟩
      (hlocals.moved htakes.moved) (Bool.eq_false_iff.2 hfresh)
      (Nat.lt_of_not_le hroom) hstep (shows_of_typeSpec htype)⟩

theorem turn_of_labelDeclaration (hmethod : state.InMethod t outer m)
    (hlabel : state.cursor.atLabel = true)
    (h : (labelDeclaration t outer m).run state = .ok a next) :
    Turn set state [] next := by
  obtain ⟨_, _, hcur, h⟩ := run_bind_ok_iff.1 h
  cases hcur
  obtain ⟨name, _, hname, h⟩ := run_bind_ok_iff.1 h
  obtain ⟨_, read, hcolon, h⟩ := run_bind_ok_iff.1 h
  obtain ⟨hfirst, -⟩ := takes_word hname
  split at h
  · rename_i placed hplaced
    cases h
    have htakes := hfirst.trans ((quiet_expect rfl).ok hcolon)
    have hat := Scan.labelAt_of_word hlabel (scan_ok hname).1 (scan_ok hcolon).1
    exact ⟨read, htakes, .placeLabel name _ (hmethod.moved htakes.moved) hplaced hat⟩
  · cases h

-- ==== instructions

/-- Trying one more form keeps what was chosen, or chooses the form. -/
theorem chosen_attempt {ctx : ArgumentContext} {args : List Argument}
    {choice : Choice} {form : Form} {accepted : Acceptance}
    (h : (choice.attempt ctx args form).chosen = some accepted) :
    choice.chosen = some accepted
      ∨ accepted.form = form ∧ (form.read ctx args).run []
        = .ok accepted.operands accepted.implicit := by
  unfold Choice.attempt at h
  split at h
  · rename_i operands implicit hread hnone
    cases h
    exact .inr ⟨rfl, hread⟩
  · exact .inl h
  · exact .inl h
  · exact .inl h

/-- What is chosen is one of the forms and what it read. -/
theorem chosen_ofForms {ctx : ArgumentContext} {args : List Argument}
    {forms : List Form} {accepted : Acceptance}
    (h : (Choice.ofForms ctx args forms).chosen = some accepted) :
    accepted.form ∈ forms ∧ (accepted.form.read ctx args).run []
      = .ok accepted.operands accepted.implicit := by
  have hfold : ∀ (choice : Choice), (forms.foldl (Choice.attempt ctx args) choice).chosen
        = some accepted → choice.chosen = some accepted
        ∨ accepted.form ∈ forms ∧ (accepted.form.read ctx args).run []
          = .ok accepted.operands accepted.implicit := by
    clear h
    induction forms with
    | nil => exact fun choice h => .inl h
    | cons form forms ih =>
      intro choice h
      rcases ih _ h with h | ⟨hmem, hread⟩
      · rcases chosen_attempt h with h | ⟨rfl, hread⟩
        · exact .inl h
        · exact .inr ⟨.head _, hread⟩
      · exact .inr ⟨.tail _ hmem, hread⟩
  rcases hfold {} h with h | h
  · cases h
  · exact h

theorem mem_forms_of_candidates {mnemonic : String} {arity : Nat}
    {form : Form} (h : form ∈ set.candidates mnemonic arity) :
    form ∈ set.forms := (List.mem_filter.1 (List.mem_filter.1 h).1).1

theorem turn_of_instruction (hmethod : state.InMethod t outer m)
    (h : (instruction set t outer m).run state = .ok a next) :
    Turn set state [] next := by
  obtain ⟨_, _, hcur, h⟩ := run_bind_ok_iff.1 h
  cases hcur
  obtain ⟨_, _, hmnemonic, h⟩ := run_bind_ok_iff.1 h
  obtain ⟨hfirst, -⟩ := takes_word hmnemonic
  simp only at h
  split at h
  case isTrue => cases h
  obtain ⟨args, _, hargs, h⟩ := run_bind_ok_iff.1 h
  have hsecond := hfirst.trans ((quiet_arguments ..).ok hargs)
  split at h
  case h_1 => cases h
  obtain ⟨scope, read, hscope, h⟩ := run_bind_ok_iff.1 h
  have hread := hsecond.trans ((quiet_visible _).ok hscope)
  have hsilent := ((silent_scan Scan.skips_silent.word hmnemonic).trans
    (silent_scan (keeps_arguments Scan.skips_silent ..) hargs)).trans (silent_visible _ hscope)
  obtain ⟨hpath, hkept⟩ := visible_ok hscope
  rw [run_get_bind] at h
  split at h
  case h_1 => cases h
  rename_i accepted hchosen
  obtain ⟨hform, haccepted⟩ := chosen_ofForms hchosen
  have hform := mem_forms_of_candidates hform
  split at h
  · rename_i warning hwarning
    cases h
    exact ⟨read, hread, .addInstruction scope args _ (hmethod.moved hread.moved) hform haccepted
      (.inr ⟨_, _, warning, hwarning, rfl⟩) hsilent hpath hkept⟩
  · cases h
    exact ⟨read, hread, .addInstruction scope args _
      (hmethod.moved hread.moved) hform haccepted (.inl rfl) hsilent hpath hkept⟩

theorem turn_of_methodStatement (hmethod : state.InMethod t outer m)
    (h : (methodStatement set t outer m).run state = .ok a next) :
    ∃ braces, Turn set state braces next := by
  obtain ⟨_, _, hcur, h⟩ := run_bind_ok_iff.1 h
  cases hcur
  split at h
  · exact ⟨_, turn_of_localsBlock hmethod h⟩
  · split at h
    · rename_i hlabel
      exact ⟨_, turn_of_labelDeclaration hmethod hlabel h⟩
    · exact ⟨_, turn_of_instruction hmethod h⟩

/-- A statement that succeeds is one of the cases. -/
theorem turn_of_statement (hskip : state.isSkipping = false)
    (h : (statement set).run state = .ok a next) :
    ∃ braces, Turn set state braces next := by
  unfold statement at h
  rw [run_get_bind] at h
  split at h
  · rename_i hpeek
    split at h
    · cases h
    · rename_i hopen
      obtain ⟨_, read, hbrace, h⟩ := run_bind_ok_iff.1 h
      cases h
      have htext := Scan.rest_of_expect hpeek (by decide) (scan_ok hbrace).1
      rw [List.isEmpty_iff] at hopen
      have htakes := takes_expect hbrace passes_closing
      rw [← htakes.moved.blocks] at hopen
      exact ⟨[.closing], read, htakes, .close hopen htext⟩
  · split at h
    · rename_i t outer hblocks
      split at h
      · rename_i hnone
        exact turn_of_typeStatement ⟨hblocks, hnone⟩ h
      · rename_i m hsome
        split at h
        · rename_i hline
          exact ⟨_, turn_of_localsEntry ⟨hblocks, hsome, hline⟩ h⟩
        · rename_i hline
          rw [Option.not_isSome_iff_eq_none] at hline
          exact turn_of_methodStatement ⟨hblocks, hsome, hline⟩ h
    · rename_i line outer hblocks
      rw [isSkipping, hblocks] at hskip
      cases hskip
    · rename_i htype hskipped
      apply turn_of_namespaceStatement _ h
      intro block hblock
      obtain ⟨outer, hblocks⟩ := List.head?_eq_some_iff.1 hblock
      cases block with
      | space line => exact ⟨line, rfl⟩
      | type t => exact (htype t outer hblocks).elim
      | skipped line => exact (hskipped line outer hblocks).elim

end Parse

end StackAsm
