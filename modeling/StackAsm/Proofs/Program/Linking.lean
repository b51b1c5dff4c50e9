/-
Linking. Reading hands over a program and, for each method with a body,
the fixes of its branches. The two are in order (`Linkable`) if no full
name is repeated, all fixes are for methods of the program whose code they
suit, and all methods with branches have their fixes. Resolving references
keeps that order; applying the fixes of a method uses them up, and if
nothing is reported then every branch is aimed at the end
(`Program.linkable_fixBranches`).
-/
import StackAsm.Program.Resolve
import StackAsm.Proofs.Diagnostic.Log
import StackAsm.Proofs.Program.Branches
import StackAsm.Proofs.Program.Entries

namespace StackAsm

open Instruction

theorem mem_middle {α : Type} {left right : List α} {middle item : α} :
    item ∈ left ++ middle :: right ↔ item = middle ∨ item ∈ left ++ right := by
  rw [List.mem_append, List.mem_cons, or_left_comm, ← List.mem_append]

/-- Where one item is replaced by a related one, every item is related to
one that is there. -/
theorem exists_mem_of_replaced {α : Type} {R : α → α → Prop}
    (hrefl : ∀ item, R item item) {left right : List α} {old new : α} (hnew : R old new) :
    ∀ item ∈ left ++ old :: right, ∃ other ∈ left ++ new :: right, R item other := by
  intro item hitem
  rcases mem_middle.1 hitem with rfl | hitem
  · exact ⟨new, mem_middle.2 (.inl rfl), hnew⟩
  · exact ⟨item, mem_middle.2 (.inr hitem), hrefl item⟩

/-- What holds of every type that was read. -/
structure TypeEntry.Sound (entry : TypeEntry) : Prop where
  part : Text.IsPart entry.name
  names_nodup : (entry.methods.map (·.name)).Nodup
  parts : ∀ method ∈ entry.methods, Text.IsPart method.name
  labels_nodup : ∀ method ∈ entry.methods, (method.body.labels.map (·.index)).Nodup

/-- Whether the fixes belong to the types listed, and the branches that
they do not fix are settled. -/
structure Linkable (entries : List TypeEntry) (fixes : List BranchFixes) : Prop where
  nodup : (entries.map (·.full)).Nodup
  sound : ∀ entry ∈ entries, entry.Sound
  suits : ∀ fix ∈ fixes, ∃ entry ∈ entries, entry.full = fix.typePath
    ∧ ∃ method, entry.methods[fix.index]? = some method ∧ fix.Suits method
  settled : ∀ entry ∈ entries, ∀ index method,
    entry.methods[index]? = some method → method.body.Settled
      ∨ ∃ fix ∈ fixes, fix.typePath = entry.full ∧ fix.index = index

namespace Linkable

variable {entries : List TypeEntry} {fixes : List BranchFixes}

/-- The order of types and fixes does not matter. -/
theorem of_perm {entries' : List TypeEntry} {fixes' : List BranchFixes}
    (h : Linkable entries fixes) (hentries : entries'.Perm entries)
    (hfixes : ∀ fix, fix ∈ fixes' ↔ fix ∈ fixes) :
    Linkable entries' fixes' where
  nodup := (hentries.map _).nodup_iff.2 h.nodup
  sound entry hentry := h.sound entry (hentries.mem_iff.1 hentry)
  suits fix hfix := by
    obtain ⟨entry, hentry, hsuits⟩ := h.suits fix ((hfixes fix).1 hfix)
    exact ⟨entry, hentries.mem_iff.2 hentry, hsuits⟩
  settled entry hentry index method hmethod := by
    rcases h.settled entry (hentries.mem_iff.1 hentry) index method hmethod
      with hsettled | ⟨fix, hfix, hplace⟩
    · exact .inl hsettled
    · exact .inr ⟨fix, (hfixes fix).2 hfix, hplace⟩

/-- A full name names one type. -/
theorem eq_of_full (h : Linkable entries fixes) {entry other : TypeEntry}
    (hentry : entry ∈ entries) (hother : other ∈ entries)
    (hfull : entry.full = other.full) : entry = other := by
  have hfound := find?_of_nodup h.nodup hentry
  rw [hfull, find?_of_nodup h.nodup hother] at hfound
  exact (Option.some.inj hfound).symm

end Linkable

-- ==== changes

/-- What linking keeps of a method. -/
structure Method.Keeps (method changed : Method) : Prop where
  name : changed.name = method.name
  labels : changed.body.labels = method.body.labels
  suits : ∀ queue : PatchQueue OpenBody BranchFault, queue.Suits method.body.instructions →
      queue.Suits changed.body.instructions

theorem Method.Keeps.refl (method : Method) : method.Keeps method := ⟨rfl, rfl, fun _ h => h⟩

theorem Method.Keeps.fixes {method changed : Method} {fixes : BranchFixes}
    (h : method.Keeps changed) (hsuits : fixes.Suits method) :
    fixes.Suits changed where
  name := h.name.trans hsuits.name
  lines := hsuits.lines.trans (congrArg List.length h.labels).symm
  queue := h.suits _ hsuits.queue

/-- What linking keeps of a type. -/
structure TypeEntry.Keeps (entry changed : TypeEntry) : Prop where
  full : changed.full = entry.full
  name : changed.name = entry.name
  methods : ∀ index : Nat, Option.Rel Method.Keeps entry.methods[index]? changed.methods[index]?

namespace TypeEntry.Keeps

variable {entry changed : TypeEntry}

theorem refl (entry : TypeEntry) : entry.Keeps entry := by
  refine ⟨rfl, rfl, ?_⟩
  intro index
  cases entry.methods[index]? with
  | none => exact .none
  | some method => exact .some (.refl method)

theorem method (h : entry.Keeps changed) {index : Nat} {method : Method}
    (hmethod : entry.methods[index]? = some method) :
    ∃ method', changed.methods[index]? = some method' ∧ method.Keeps method' := by
  have hrel := h.methods index
  rw [hmethod] at hrel
  generalize changed.methods[index]? = new at hrel ⊢
  cases hrel with
  | some hkeeps => exact ⟨_, rfl, hkeeps⟩

theorem exists_method (h : entry.Keeps changed) {method' : Method}
    (hmethod : method' ∈ changed.methods) :
    ∃ method ∈ entry.methods, method.Keeps method' := by
  obtain ⟨index, hindex⟩ := List.getElem?_of_mem hmethod
  have hrel := h.methods index
  rw [hindex] at hrel
  generalize hold : entry.methods[index]? = old at hrel
  cases hrel with
  | some hkeeps => exact ⟨_, List.mem_of_getElem? hold, hkeeps⟩

theorem names (h : entry.Keeps changed) :
    changed.methods.map (·.name) = entry.methods.map (·.name) := by
  apply List.ext_getElem?
  intro index
  have hrel := h.methods index
  rw [List.getElem?_map, List.getElem?_map]
  generalize entry.methods[index]? = old at hrel ⊢
  generalize changed.methods[index]? = new at hrel ⊢
  cases hrel with
  | none => rfl
  | some hkeeps => exact congrArg some hkeeps.name

theorem sound (h : entry.Keeps changed) (hsound : entry.Sound) : changed.Sound where
  part := by
    rw [h.name]
    exact hsound.part
  names_nodup := by
    rw [h.names]
    exact hsound.names_nodup
  parts method' hmethod := by
    obtain ⟨method, hmem, hkeeps⟩ := h.exists_method hmethod
    rw [hkeeps.name]
    exact hsound.parts method hmem
  labels_nodup method' hmethod := by
    obtain ⟨method, hmem, hkeeps⟩ := h.exists_method hmethod
    rw [hkeeps.labels]
    exact hsound.labels_nodup method hmem

end TypeEntry.Keeps

/-- Types that are changed only as linking does stay in order, whatever
fixes are left, as long as the methods without one are settled. -/
theorem Linkable.change {entries entries' : List TypeEntry}
    {fixes rest : List BranchFixes} (h : Linkable entries fixes)
    (hfull : entries'.map (·.full) = entries.map (·.full))
    (hforth : ∀ entry ∈ entries, ∃ changed ∈ entries', entry.Keeps changed)
    (hback : ∀ changed ∈ entries', ∃ entry ∈ entries, entry.Keeps changed)
    (hrest : ∀ fix ∈ rest, fix ∈ fixes)
    (hsettled : ∀ changed ∈ entries', ∀ index method,
      changed.methods[index]? = some method → method.body.Settled
        ∨ ∃ fix ∈ rest, fix.typePath = changed.full ∧ fix.index = index) :
    Linkable entries' rest where
  nodup := by
    rw [hfull]
    exact h.nodup
  sound changed hchanged := by
    obtain ⟨entry, hentry, hkeeps⟩ := hback changed hchanged
    exact hkeeps.sound (h.sound entry hentry)
  suits fix hfix := by
    obtain ⟨entry, hentry, hpath, _, hmethod, hsuits⟩ := h.suits fix (hrest fix hfix)
    obtain ⟨changed, hchanged, hkeeps⟩ := hforth entry hentry
    obtain ⟨method', hmethod', hkept⟩ := hkeeps.method hmethod
    exact ⟨changed, hchanged, hkeeps.full.trans hpath, method', hmethod', hkept.fixes hsuits⟩
  settled := hsettled

-- ==== growth

namespace Linkable

/-- Nothing is in order. -/
theorem empty : Linkable [] [] where
  nodup := List.nodup_nil
  sound := nofun
  suits := nofun
  settled := nofun

/-- A type without methods can be added if its full name is new. -/
theorem addType {entries : List TypeEntry} {fixes : List BranchFixes}
    (h : Linkable entries fixes) {full name : String}
    (hpart : Text.IsPart name) (hfresh : full ∉ entries.map (·.full)) :
    Linkable (⟨full, name, []⟩ :: entries) fixes where
  nodup := List.nodup_cons.2 ⟨hfresh, h.nodup⟩
  sound := List.forall_mem_cons.2 ⟨⟨hpart, List.nodup_nil, fun _ => nofun, fun _ => nofun⟩, h.sound⟩
  suits fix hfix := by
    obtain ⟨entry, hentry, hsuits⟩ := h.suits fix hfix
    exact ⟨entry, .tail _ hentry, hsuits⟩
  settled := List.forall_mem_cons.2 ⟨fun _ _ => nofun, h.settled⟩

/-- A method can be added behind those of its type if its name is new,
together with fixes that suit it if it is not settled. -/
theorem addMethod {left right : List TypeEntry} {full name : String}
    {methods : List Method} {fixes new : List BranchFixes}
    (h : Linkable (left ++ ⟨full, name, methods⟩ :: right) fixes)
    {method : Method} (hpart : Text.IsPart method.name)
    (hfresh : method.name ∉ methods.map (·.name))
    (hlabels : (method.body.labels.map (·.index)).Nodup)
    (hnew : ∀ fix ∈ new, fix.typePath = full ∧ fix.index = methods.length
      ∧ fix.Suits method) (hsettled : method.body.Settled ∨ new ≠ []) :
    Linkable (left ++ ⟨full, name, methods ++ [method]⟩ :: right) (new ++ fixes) := by
  have hold := h.sound _ (mem_middle.2 (.inl rfl))
  refine ⟨?_, ?_, ?_, ?_⟩
  · have hnodup := h.nodup
    rw [List.map_append, List.map_cons] at hnodup ⊢
    exact hnodup
  · intro entry hentry
    rcases mem_middle.1 hentry with rfl | hmem
    · refine ⟨hold.part, ?_, ?_, ?_⟩
      · exact nodup_map_concat hold.names_nodup hfresh
      · rw [List.forall_mem_append, List.forall_mem_singleton]
        exact ⟨hold.parts, hpart⟩
      · rw [List.forall_mem_append, List.forall_mem_singleton]
        exact ⟨hold.labels_nodup, hlabels⟩
    · exact h.sound entry (mem_middle.2 (.inr hmem))
  · intro fix hfix
    rcases List.mem_append.1 hfix with hfix | hfix
    · obtain ⟨hpath, hindex, hsuits⟩ := hnew fix hfix
      refine ⟨_, mem_middle.2 (.inl rfl), hpath.symm, method, ?_, hsuits⟩
      rw [hindex]
      exact List.getElem?_concat_length
    · -- a type keeps its methods in front of those that are added
      have hgrows := @exists_mem_of_replaced _
        (fun entry more : TypeEntry => more.full = entry.full ∧ entry.methods <+: more.methods)
        (fun _ => ⟨rfl, List.prefix_rfl⟩) left right
        ⟨full, name, methods⟩ ⟨full, name, methods ++ [method]⟩ ⟨rfl, List.prefix_append ..⟩
      obtain ⟨entry, hentry, hpath, found, hfound, hsuits⟩ := h.suits fix hfix
      obtain ⟨more, hmore, hfull, _, hback⟩ := hgrows entry hentry
      refine ⟨more, hmore, hfull.trans hpath, found, ?_, hsuits⟩
      rw [← hback, List.getElem?_append_left (List.getElem?_eq_some_iff.1 hfound).1]
      exact hfound
  · intro entry hentry index found hfound
    have hlift : found.body.Settled ∨ (∃ fix ∈ fixes,
          fix.typePath = entry.full ∧ fix.index = index) →
        found.body.Settled ∨ ∃ fix ∈ new ++ fixes,
          fix.typePath = entry.full ∧ fix.index = index := by
      rintro (hdone | ⟨fix, hfix, hplace⟩)
      · exact .inl hdone
      · exact .inr ⟨fix, List.mem_append_right _ hfix, hplace⟩
    rcases mem_middle.1 hentry with rfl | hmem
    · rw [List.getElem?_append] at hfound
      split at hfound
      · exact hlift (h.settled _ (mem_middle.2 (.inl rfl)) index found hfound)
      · rw [List.getElem?_singleton] at hfound
        split at hfound
        · cases hfound
          rcases hsettled with hdone | hne
          · exact .inl hdone
          · obtain ⟨fix, hfix⟩ := List.exists_mem_of_ne_nil _ hne
            obtain ⟨hpath, hindex, -⟩ := hnew fix hfix
            exact .inr ⟨fix, List.mem_append_left _ hfix, hpath, by omega⟩
        · cases hfound
    · exact hlift (h.settled entry (mem_middle.2 (.inr hmem)) index found hfound)

end Linkable

-- ==== fixes

/-- A method is put back in its place in its type. -/
theorem TypeEntry.keeps_set {full name : String} {methods : List Method}
    {index : Nat} {method changed : Method} (hmethod : methods[index]? = some method)
    (hkeeps : method.Keeps changed) :
    Keeps ⟨full, name, methods⟩ ⟨full, name, methods.set index changed⟩ := by
  refine ⟨rfl, rfl, ?_⟩
  intro other
  by_cases hother : other = index
  · subst hother
    rw [hmethod, List.getElem?_set_self (List.getElem?_eq_some_iff.1 hmethod).1]
    exact .some hkeeps
  · rw [List.getElem?_set_ne (Ne.symm hother)]
    exact (TypeEntry.Keeps.refl ⟨full, name, methods⟩).methods other

namespace Linkable

variable {fix : BranchFixes} {fixes rest : List BranchFixes}

/-- A method that waits for its fixes may be replaced by one that linking
makes of it. -/
theorem replace {left right : List TypeEntry} {name : String}
    {methods : List Method} {method changed : Method}
    (h : Linkable (left ++ ⟨fix.typePath, name, methods⟩ :: right) fixes)
    (hfix : fix ∈ fixes) (hmethod : methods[fix.index]? = some method)
    (hkeeps : method.Keeps changed) :
    Linkable (left ++ ⟨fix.typePath, name, methods.set fix.index changed⟩ :: right) fixes := by
  have hhere := @TypeEntry.keeps_set fix.typePath name _ _ _ _ hmethod hkeeps
  refine h.change ?_ (exists_mem_of_replaced .refl hhere)
    (@exists_mem_of_replaced _ (flip TypeEntry.Keeps) .refl _ _ _ _ hhere) (fun _ hmem => hmem) ?_
  · simp only [List.map_append, List.map_cons]
  · intro entry hentry index found hfound
    rcases mem_middle.1 hentry with rfl | hmem
    · by_cases hindex : index = fix.index
      · exact .inr ⟨fix, hfix, rfl, hindex.symm⟩
      · rw [List.getElem?_set_ne (Ne.symm hindex)] at hfound
        exact h.settled _ (mem_middle.2 (.inl rfl)) index found hfound
    · exact h.settled entry (mem_middle.2 (.inr hmem)) index found hfound

/-- Fixes are used up when the method they are for is settled. -/
theorem drop {entries : List TypeEntry} (h : Linkable entries (fix :: rest))
    (hdone : ∀ entry ∈ entries, entry.full = fix.typePath →
      ∀ method, entry.methods[fix.index]? = some method → method.body.Settled) :
    Linkable entries rest where
  nodup := h.nodup
  sound := h.sound
  suits other hother := h.suits other (.tail _ hother)
  settled entry hentry index method hmethod := by
    rcases h.settled entry hentry index method hmethod with
      hsettled | ⟨other, hother, hpath, rfl⟩
    · exact .inl hsettled
    · rcases List.mem_cons.1 hother with rfl | hother
      · exact .inl (hdone entry hentry hpath.symm method hmethod)
      · exact .inr ⟨other, hother, hpath, rfl⟩

end Linkable

-- ==== whole programs

namespace BranchFixes

/-- Whatever is wrong with fixes is an error. -/
theorem isError_of_apply {fixes : BranchFixes} {body : MethodBody} :
    ∀ d ∈ (fixes.apply body).2, d.isError = true := by
  unfold apply
  split
  · intro d hd
    obtain ⟨_, -, rfl⟩ := List.mem_map.1 hd
    rfl
  · intro d hd
    obtain ⟨_, -, rfl⟩ := List.mem_map.1 hd
    rfl

end BranchFixes

namespace Program

variable {program : Program} {log : Log} {fix : BranchFixes} {fixes rest : List BranchFixes}

theorem mem_entries {entry : String × TypeDecl} (h : entry ∈ program.types) :
    ⟨entry.1, entry.2.name, entry.2.methods⟩ ∈ program.entries := by
  rw [entries_eq]
  exact List.mem_map.2 ⟨entry, h, rfl⟩

/-- A method belongs to an entry. -/
theorem exists_entry_of_mem_methods {entry : String × Method} (hentry : entry ∈ program.methods) :
    ∃ type ∈ program.entries, type.full = entry.1 ∧ entry.2 ∈ type.methods := by
  rw [methods_eq] at hentry
  obtain ⟨type, htype, hentry⟩ := List.mem_flatMap.1 hentry
  obtain ⟨_, hmethod, rfl⟩ := List.mem_map.1 hentry
  exact ⟨type, htype, rfl, hmethod⟩

/-- With no fixes left every method is settled. -/
theorem settled_of_linkable (h : Linkable program.entries []) :
    ∀ entry ∈ program.methods, entry.2.body.Settled := by
  intro entry hentry
  obtain ⟨type, htype, -, hmethod⟩ := exists_entry_of_mem_methods hentry
  obtain ⟨index, hindex⟩ := List.getElem?_of_mem hmethod
  rcases h.settled type htype index entry.2 hindex with
    hsettled | ⟨fix, hfix, -⟩
  · exact hsettled
  · cases hfix

theorem isPart_of_sound (h : ∀ entry ∈ program.entries, entry.Sound) :
    ∀ entry ∈ program.types, Text.IsPart entry.2.name :=
  fun _ hentry => (h _ (mem_entries hentry)).part

/-- A name under which there is a type is not new. -/
theorem not_mem_of_find? (hsound : ∀ entry ∈ program.entries, entry.Sound)
    (hnodup : (program.entries.map (·.full)).Nodup) {full : String}
    (h : program.find? full = none) :
    full ∉ program.entries.map (·.full) := by
  rw [entries_eq, List.map_map] at hnodup ⊢
  intro hmem
  obtain ⟨_, hentry, rfl⟩ := List.mem_map.1 hmem
  exact find?_ne_none (isPart_of_sound hsound) hnodup hentry h

/-- A type is found under its full name. -/
theorem find?_of_entry (hsound : ∀ entry ∈ program.entries, entry.Sound)
    (hnodup : (program.entries.map (·.full)).Nodup) {entry : TypeEntry}
    (hentry : entry ∈ program.entries) :
    ∃ type, program.find? entry.full = some type ∧ type.methods = entry.methods := by
  rw [entries_eq, List.map_map] at hnodup
  rw [entries_eq] at hentry
  obtain ⟨found, hfound, rfl⟩ := List.mem_map.1 hentry
  exact ⟨found.2, find?_of_mem (isPart_of_sound hsound) hnodup hfound, rfl⟩

theorem errorCount_le_fixMethod (program : Program) (log : Log) (fix : BranchFixes) :
    log.errorCount ≤ (program.fixMethod log fix).2.1.errorCount := by
  unfold fixMethod
  split
  · exact Log.errorCount_le_report ..
  · exact Log.errorCount_le_reportAll ..

theorem errorCount_le_fixBranches (program : Program) (log : Log) (fixes : List BranchFixes) :
    log.errorCount ≤ (program.fixBranches log fixes).2.1.errorCount := by
  induction fixes generalizing program log with
  | nil => exact Nat.le_refl _
  | cons fix rest ih =>
    exact Nat.le_trans (program.errorCount_le_fixMethod log fix) (ih ..)

/-- The type with the fixes applied to one of its methods. -/
def putFixed (fix : BranchFixes) (method : Method) (type : TypeDecl) : TypeDecl :=
  let fixed : Method := { method with body := (fix.apply method.body).1 }
  { type with methods := type.methods.set fix.index fixed }

/-- The fixes were applied to a method that they suit, found in its type;
of all entries that of the type has changed, between `left` and
`right`. -/
structure Fixed (program fixed : Program) (fix : BranchFixes)
    (type : TypeDecl) (method : Method) (left right : List TypeEntry) :
    Prop where
  found : program.find? fix.typePath = some type
  place : type.methods[fix.index]? = some method
  suits : fix.Suits method
  changed : program.changeType? fix.typePath (putFixed fix method) = some fixed
  before : program.entries = left ++ ⟨fix.typePath, type.name, type.methods⟩ :: right
  after : fixed.entries = left ++ ⟨fix.typePath, type.name,
    (putFixed fix method type).methods⟩ :: right
  outline : fixed.outline = program.outline
  externals : fixed.externals = program.externals

/-- The fixes find the method they are for. -/
theorem fixMethod_eq (h : Linkable program.entries fixes) (hfix : fix ∈ fixes) (log : Log) :
    ∃ type method left right, Fixed program (program.fixMethod log fix).1 fix type method left right
      ∧ (program.fixMethod log fix).2.1
        = log.reportAll (fix.apply method.body).2 := by
  obtain ⟨_, hentry, hpath, method, hmethod, hsuits⟩ := h.suits fix hfix
  obtain ⟨type, htype, hmethods⟩ := find?_of_entry h.sound h.nodup hentry
  rw [hpath] at htype
  rw [← hmethods] at hmethod
  have htarget : fix.target? program = some method := by
    rw [BranchFixes.target?, htype, Option.bind_some, hmethod,
      Option.filter_some, if_pos (beq_iff_eq.2 hsuits.name)]
  obtain ⟨changed, left, right, hchanged, hleft, hright, houtline,
    hexternals⟩ := @changeType?_of_find? _ program
      (isPart_of_sound h.sound) _ (putFixed fix method) htype rfl rfl
  have hput : fix.putBack program { method with body := (fix.apply method.body).1 } = changed := by
    change (program.changeType? fix.typePath (putFixed fix method)).getD program = changed
    rw [hchanged]
    rfl
  have hfixed : program.fixMethod log fix
      = (fix.putBack program { method with body := (fix.apply method.body).1 },
        log.reportAll (fix.apply method.body).2,
        (fix.apply method.body).2.isEmpty) := by
    rw [fixMethod, htarget]
  rw [hput] at hfixed
  rw [hfixed]
  exact ⟨type, method, left, right, ⟨htype, hmethod, hsuits, hchanged,
    hleft, hright, houtline, hexternals⟩, rfl⟩

theorem keeps_apply {method : Method} (hsuits : fix.Suits method) :
    method.Keeps { method with body := (fix.apply method.body).1 } := by
  obtain ⟨-, hlabels, hcode⟩ := BranchFixes.keeps_of_apply hsuits.queue
  exact ⟨rfl, hlabels, fun _ hqueue => hqueue.of_unaimed hcode⟩

/-- Whatever is reported, fixing a method keeps the order of types and
fixes. -/
theorem Fixed.linkable {fixed : Program} {type : TypeDecl}
    {method : Method} {left right : List TypeEntry}
    (hfixed : Fixed program fixed fix type method left right)
    (h : Linkable program.entries fixes) (hfix : fix ∈ fixes) :
    Linkable fixed.entries fixes := by
  rw [hfixed.before] at h
  rw [hfixed.after]
  exact h.replace hfix hfixed.place (keeps_apply hfixed.suits)

/-- The fixes of a method, if nothing is reported, settle it. -/
theorem linkable_fixMethod (h : Linkable program.entries (fix :: rest))
    (hlog : (program.fixMethod log fix).2.1.errorCount = log.errorCount) :
    Linkable (program.fixMethod log fix).1.entries rest
      ∧ (program.fixMethod log fix).1.outline = program.outline
      ∧ (program.fixMethod log fix).1.externals = program.externals := by
  have hfix : fix ∈ fix :: rest := .head _
  obtain ⟨type, method, _, _, hfixed, hreported⟩ := fixMethod_eq h hfix log
  rw [hreported] at hlog
  have hok := Log.eq_nil_of_reportAll BranchFixes.isError_of_apply hlog
  have hlink := hfixed.linkable h hfix
  refine ⟨hlink.drop fun _ hentry hpath _ hfound => ?_,
    hfixed.outline, hfixed.externals⟩
  -- the type of that name is the one that was changed
  have hhere : ⟨fix.typePath, type.name, (putFixed fix method type).methods⟩
      ∈ (program.fixMethod log fix).1.entries := by
    rw [hfixed.after]
    exact mem_middle.2 (.inl rfl)
  have hsame := hlink.eq_of_full hentry hhere hpath
  subst hsame
  have hlt := (List.getElem?_eq_some_iff.1 hfixed.place).1
  change (type.methods.set _ _)[fix.index]? = _ at hfound
  rw [List.getElem?_set_self hlt, Option.some.injEq] at hfound
  rw [← hfound]
  exact BranchFixes.settled_of_apply hfixed.suits hok

/-- All fixes, if nothing is reported, settle every method. -/
theorem linkable_fixBranches (h : Linkable program.entries fixes)
    (hlog : (program.fixBranches log fixes).2.1.errorCount
      = log.errorCount) :
    Linkable (program.fixBranches log fixes).1.entries []
      ∧ (program.fixBranches log fixes).1.outline = program.outline
      ∧ (program.fixBranches log fixes).1.externals
        = program.externals := by
  induction fixes generalizing program log with
  | nil => exact ⟨h, rfl, rfl⟩
  | cons fix rest ih =>
    have hlow := program.errorCount_le_fixMethod log fix
    have hhigh := errorCount_le_fixBranches
      (program.fixMethod log fix).1 (program.fixMethod log fix).2.1 rest
    change (fixBranches (program.fixMethod log fix).1
      (program.fixMethod log fix).2.1 rest).2.1.errorCount = _ at hlog
    have hfirst : (program.fixMethod log fix).2.1.errorCount = log.errorCount := by omega
    obtain ⟨hnext, houtline, hexternals⟩ := linkable_fixMethod h hfirst
    obtain ⟨hlast, houtline', hexternals'⟩ := ih hnext (hlog.trans hfirst.symm)
    exact ⟨hlast, houtline'.trans houtline, hexternals'.trans hexternals⟩

end Program

-- ==== references

section References

variable (f : Reference → Reference)

theorem Operand.mapReference_eq_label {operand : Operand} {index : UInt16}
    {target : Option UInt32} :
    operand.mapReference f = .label index target ↔ operand = .label index target := by
  cases operand <;> simp [mapReference]

theorem Instruction.operandAt?_mapReferences {code : List Instruction}
    {position slot : Nat} {index : UInt16} {target : Option UInt32} :
    operandAt? (code.map (mapReferences f)) position slot
        = some (.label index target)
      ↔ operandAt? code position slot = some (.label index target) := by
  rw [operandAt?_map fun _ => rfl, Option.map_eq_some_iff]
  simp only [Operand.mapReference_eq_label, exists_eq_right]

namespace Method

/-- Resolving references keeps what linking keeps. -/
theorem keeps_mapReferences (method : Method) : method.Keeps (method.mapReferences f) where
  name := rfl
  labels := rfl
  suits queue hqueue := by
    refine hqueue.of_branches (List.length_map _) ?_
    intro position slot index
    exact exists_congr fun _ => operandAt?_mapReferences f

theorem settled_mapReferences {method : Method}
    (h : method.body.Settled) : (method.mapReferences f).body.Settled := by
  refine ⟨h.placed, ?_⟩
  intro hsmall
  have haimed := MethodBody.aimed_iff.1 (h.aimed (by
    change (method.body.instructions.map _).length ≤ _ at hsmall
    rwa [List.length_map] at hsmall))
  rw [MethodBody.aimed_iff]
  intro position slot index target hop
  exact haimed position slot index target ((operandAt?_mapReferences f).1 hop)

end Method

/-- The type with the references of its methods replaced. -/
def TypeEntry.mapReferences (entry : TypeEntry) : TypeEntry :=
  { entry with methods := entry.methods.map (Method.mapReferences f) }

theorem TypeEntry.keeps_mapReferences (entry : TypeEntry) :
    entry.Keeps (entry.mapReferences f) := by
  refine ⟨rfl, rfl, ?_⟩
  intro index
  show Option.Rel _ _ (entry.methods.map _)[index]?
  rw [List.getElem?_map]
  cases entry.methods[index]? with
  | none => exact .none
  | some method => exact .some (method.keeps_mapReferences f)

namespace TypeDecl

theorem mapAllReferences_eq (types : List TypeDecl) :
    mapAllReferences f types = types.map (mapReferences f) := by
  induction types with
  | nil => rfl
  | cons type rest ih => rw [mapAllReferences, ih, List.map_cons]

theorem mapReferences_eq (type : TypeDecl) :
    type.mapReferences f
      = ⟨type.name, type.attrs, type.fields.map (Field.mapReference f),
        type.methods.map (Method.mapReferences f),
        type.nested.map (mapReferences f), type.line⟩ := by
  obtain ⟨_, _, _, _, _, _⟩ := type
  rw [mapReferences, mapAllReferences_eq]

/-- References are changed member by member. -/
theorem mapReferences_eq_mapMembers (type : TypeDecl) :
    type.mapReferences f = type.mapMembers (Field.mapReference f) (Method.mapReferences f) id := by
  induction type using nested_induction with
  | step type ih =>
    rw [mapReferences_eq, mapMembers_eq, List.map_congr_left ih]
    rfl

end TypeDecl

namespace Program

theorem types_mapReferences (program : Program) :
    (program.mapReferences f).types = program.types.map fun entry =>
        (entry.1, entry.2.mapReferences f) := by
  unfold types mapReferences
  simp only [List.flatMap_map, List.map_flatMap, TypeDecl.walkAll_eq,
    TypeDecl.mapAllReferences_eq, TypeDecl.mapReferences_eq_mapMembers, TypeDecl.walk_mapMembers]

theorem entries_mapReferences (program : Program) :
    (program.mapReferences f).entries = program.entries.map (TypeEntry.mapReferences f) := by
  rw [entries_eq, entries_eq, types_mapReferences, List.map_map, List.map_map]
  refine List.map_congr_left fun _ _ => ?_
  simp only [Function.comp_apply, TypeDecl.mapReferences_eq]
  rfl

theorem outline_mapReferences (program : Program) :
    (program.mapReferences f).outline = program.outline := by
  refine (List.map_map ..).trans (List.map_congr_left ?_)
  intro space _
  show (space.name, (TypeDecl.mapAllReferences f space.types).length) = _
  rw [TypeDecl.mapAllReferences_eq, List.length_map]

/-- Resolving references keeps the order of types and fixes. -/
theorem linkable_mapReferences {program : Program}
    {fixes : List BranchFixes} (h : Linkable program.entries fixes) :
    Linkable (program.mapReferences f).entries fixes := by
  rw [entries_mapReferences]
  refine h.change ?_ ?_ ?_ (fun _ hmem => hmem) ?_
  · rw [List.map_map]
    rfl
  · intro entry hentry
    exact ⟨_, List.mem_map.2 ⟨entry, hentry, rfl⟩, entry.keeps_mapReferences f⟩
  · intro changed hchanged
    obtain ⟨entry, hentry, rfl⟩ := List.mem_map.1 hchanged
    exact ⟨entry, hentry, entry.keeps_mapReferences f⟩
  · intro changed hchanged index method hmethod
    obtain ⟨entry, hentry, rfl⟩ := List.mem_map.1 hchanged
    change (entry.methods.map _)[index]? = _ at hmethod
    rw [List.getElem?_map] at hmethod
    obtain ⟨old, hold, rfl⟩ := Option.map_eq_some_iff.1 hmethod
    rcases h.settled entry hentry index old hold with hdone | hfix
    · exact .inl (Method.settled_mapReferences f hdone)
    · exact .inr hfix

end Program

end References

end StackAsm
