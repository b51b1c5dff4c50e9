/-
Debug name files, written and read back. A file holds every list in full,
duplicates included, so it is read back as it was whenever it keeps to the
limits of its format: a heap, lists and nesting that are not too large
(`DebugNames.Loadable`). A file whose heap is too large is refused. Names
that also keep to the limits of writers (`DebugNames.Limited`) are always
written, but for a name whose length does not fit in four bytes.
-/
import StackAsm.DebugNames.Binary
import StackAsm.Proofs.Bytes.Writers

namespace StackAsm

open Encode Decode

-- ==== conditions

/-- The names of a type can be read where `depth` more levels may nest. -/
def TypeNames.Fits : Nat → TypeNames → Prop
  | 0, _ => False
  | depth + 1, names =>
    names.nested.length ≤ countLimit ∧ names.methods.length ≤ countLimit
      ∧ ∀ inner ∈ names.nested, Fits depth inner

/-- The names of a method can be counted in two bytes. -/
abbrev MethodNames.Limited (names : MethodNames) : Prop :=
  names.locals.length ≤ 65535 ∧ names.labels.length ≤ 65535

/-- The names of a type can be written and read where `depth` more levels
may nest. -/
def TypeNames.Limited : Nat → TypeNames → Prop
  | 0, _ => False
  | depth + 1, names =>
    names.nested.length ≤ countLimit ∧ names.methods.length ≤ countLimit
      ∧ (∀ method ∈ names.methods, method.Limited) ∧ ∀ inner ∈ names.nested, Limited depth inner

instance TypeNames.decidableLimited :
    (depth : Nat) → (names : TypeNames) → Decidable (names.Limited depth)
  | 0, _ => inferInstanceAs (Decidable False)
  | depth + 1, names =>
    have := decidableLimited depth
    inferInstanceAs (Decidable (names.nested.length ≤ countLimit ∧ names.methods.length ≤ countLimit
      ∧ (∀ method ∈ names.methods, method.Limited) ∧ ∀ inner ∈ names.nested, Limited depth inner))

theorem TypeNames.Limited.fits {depth : Nat} {names : TypeNames}
    (h : names.Limited depth) : names.Fits depth := by
  induction depth generalizing names with
  | zero => exact h
  | succ depth ih =>
    obtain ⟨hnested, hmethods, -, hinner⟩ := h
    exact ⟨hnested, hmethods, fun inner hmem => ih (hinner inner hmem)⟩

namespace DebugNames

/-- The names that go to the heap of a file. -/
def heap (db : DebugNames) : StringHeap := match db.encodeBody.run {} with
  | .ok _ heap => heap
  | .error _ heap => heap

/-- The names keep to what readers of a file accept. -/
structure Loadable (db : DebugNames) : Prop where
  heap_le : db.heap.size ≤ countLimit
  namespaces_le : db.namespaces.length ≤ countLimit
  types_le : ∀ space ∈ db.namespaces, space.types.length ≤ countLimit
  fits : ∀ space ∈ db.namespaces, ∀ type ∈ space.types, type.Fits depthLimit

end DebugNames

theorem TypeNames.sizeOf_lt_of_mem_nested {names inner : TypeNames}
    (h : inner ∈ names.nested) : sizeOf inner < sizeOf names := by
  have hlist := List.sizeOf_lt_of_mem h
  obtain ⟨_, _, _⟩ := names
  rw [TypeNames.mk.sizeOf_spec]
  simp only at hlist
  omega

/-- What holds of the names of a type as soon as it holds of the types
nested in it holds of all. -/
@[elab_as_elim]
theorem TypeNames.nested_induction {motive : TypeNames → Prop}
    (step : ∀ names : TypeNames, (∀ inner ∈ names.nested, motive inner) → motive names)
    (names : TypeNames) : motive names :=
  step names fun inner _hinner => nested_induction step inner
termination_by sizeOf names
decreasing_by exact sizeOf_lt_of_mem_nested _hinner

-- ==== writing

def MethodNames.texts (names : MethodNames) : List String :=
  names.name :: names.locals.flatMap (fun entry => [entry.name])
    ++ names.labels.flatMap fun entry => [entry.name]

mutual

/-- The texts that the names of a type put on a heap. -/
def TypeNames.texts : TypeNames → List String
  | ⟨name, nested, methods⟩ =>
    name :: textsAll nested ++ methods.flatMap MethodNames.texts

def TypeNames.textsAll : List TypeNames → List String
  | [] => []
  | type :: rest => texts type ++ textsAll rest

end

section Writing

variable {F : FormatFault → Prop} {checks : Checks}

theorem LocalName.writes_encode (entry : LocalName) :
    entry.encode.Writes [entry.name] F := (writes_heapString entry.name).map _ _

theorem LabelName.writes_encode (entry : LabelName) :
    entry.encode.Writes [entry.name] F := (writes_heapString entry.name).map _ _

/-- Debug names hold nothing that could fail to be written but for its
size. -/
theorem MethodNames.writes_encode (names : MethodNames) (h : checks.sized → names.Limited) :
    names.encode.Writes names.texts checks.Leaves :=
  (writes_heapString names.name).bind fun _ _ _ _ =>
    (mirrors_lift (Checks.failsOnly_count16
      (fun hcheck => Nat.lt_succ_of_le (h hcheck).1) _)).bind fun _ _ _ _ =>
    (writes_all fun entry _ => entry.writes_encode).bind fun _ _ _ _ =>
    (mirrors_lift (Checks.failsOnly_count16
      (fun hcheck => Nat.lt_succ_of_le (h hcheck).2) _)).bind fun _ _ _ _ =>
    (writes_all fun entry _ => entry.writes_encode).map _ _

namespace TypeNames

theorem textsAll_eq (types : List TypeNames) : textsAll types = types.flatMap texts := by
  induction types with
  | nil => rfl
  | cons type rest ih => rw [textsAll, ih, List.flatMap_cons]

theorem writes_encodeAll {types : List TypeNames}
    (h : ∀ type ∈ types, type.encode.Writes type.texts F) :
    (encodeAll types).Writes (textsAll types) F := by
  induction types with
  | nil => exact writes_pure _
  | cons type rest ih =>
    rw [List.forall_mem_cons] at h
    exact h.1.bind fun _ _ _ _ => (ih h.2).map _ _

theorem writes_encode (names : TypeNames) (h : checks.sized → ∃ depth, names.Limited depth) :
    names.encode.Writes names.texts checks.Leaves := by
  induction names using TypeNames.nested_induction with
  | step names ih =>
    obtain ⟨name, nested, methods⟩ := names
    have hparts : checks.sized → nested.length < UInt32.size ∧ methods.length < UInt32.size
        ∧ (∀ method ∈ methods, method.Limited)
        ∧ ∀ inner ∈ nested, ∃ depth, inner.Limited depth := by
      intro hcheck
      obtain ⟨_ | depth, hlimited⟩ := h hcheck
      · exact hlimited.elim
      obtain ⟨hnested, hmethods, hlists, hinner⟩ := hlimited
      exact ⟨Nat.lt_of_le_of_lt hnested (by decide),
        Nat.lt_of_le_of_lt hmethods (by decide), hlists,
        fun inner hmem => ⟨depth, hinner inner hmem⟩⟩
    have hinner := fun inner hmem => ih inner hmem fun hcheck =>
      (hparts hcheck).2.2.2 inner hmem
    unfold encode texts
    exact (writes_heapString name).bind fun _ _ _ _ =>
      (mirrors_lift (Checks.failsOnly_count32
        (fun hcheck => (hparts hcheck).1) _)).bind fun _ _ _ _ =>
      (writes_encodeAll hinner).bind fun _ _ _ _ =>
      (mirrors_lift (Checks.failsOnly_count32
        (fun hcheck => (hparts hcheck).2.1) _)).bind fun _ _ _ _ =>
      (writes_all fun method hmem => method.writes_encode fun hcheck =>
        (hparts hcheck).2.2.1 method hmem).map _ _

theorem extends_encode (names : TypeNames) : names.encode.Extends :=
  (@writes_encode .none names False.elim).extends

end TypeNames

theorem NamespaceNames.writes_encode {names : NamespaceNames}
    (hcount : FailsOnly F (Encode.count32 names.types.length "cpdb types"))
    (htypes : ∀ type ∈ names.types, type.encode.Writes type.texts F) :
    names.encode.Writes (names.name :: names.types.flatMap TypeNames.texts) F := by
  rw [← TypeNames.textsAll_eq]
  exact (writes_heapString names.name).bind fun _ _ _ _ =>
    (mirrors_lift hcount).bind fun _ _ _ _ =>
      (TypeNames.writes_encodeAll htypes).map _ _

theorem NamespaceNames.extends_encode (names : NamespaceNames) :
    names.encode.Extends :=
  (NamespaceNames.writes_encode (Checks.failsOnly_count32 False.elim _)
    fun type _ => @type.writes_encode .none False.elim).extends

namespace DebugNames

def texts (db : DebugNames) : List String := db.namespaces.flatMap fun space =>
    space.name :: space.types.flatMap TypeNames.texts

/-- Why the parts of debug names may fail to be written. -/
structure Parts (F : FormatFault → Prop) (db : DebugNames) : Prop where
  count : FailsOnly F (Encode.count32 db.namespaces.length "cpdb namespaces")
  counts : ∀ space ∈ db.namespaces, FailsOnly F (Encode.count32 space.types.length "cpdb types")
  types : ∀ space ∈ db.namespaces, ∀ type ∈ space.types, type.encode.Writes type.texts F

theorem Parts.writes_encodeBody {db : DebugNames} (h : db.Parts F) :
    db.encodeBody.Writes db.texts F := (mirrors_lift h.count).bind fun _ _ _ _ =>
    (writes_all fun space hspace => NamespaceNames.writes_encode
      (h.counts space hspace) (h.types space hspace)).map _ _

/-- The names keep to the limits of a file, but perhaps for its heap. -/
abbrev Limited (db : DebugNames) : Prop :=
  db.namespaces.length ≤ countLimit ∧ ∀ space ∈ db.namespaces, space.types.length ≤ countLimit
      ∧ ∀ type ∈ space.types, type.Limited depthLimit

theorem Limited.loadable {db : DebugNames} (h : db.Limited)
    (hheap : db.heap.size ≤ countLimit) : db.Loadable :=
  ⟨hheap, h.1, fun space hspace => (h.2 space hspace).1,
    fun space hspace type htype => ((h.2 space hspace).2 type htype).fits⟩

theorem parts {db : DebugNames} (h : checks.sized → db.Limited) : db.Parts checks.Leaves where
  count := Checks.failsOnly_count32 (fun hcheck =>
    Nat.lt_of_le_of_lt (h hcheck).1 (by decide)) _
  counts space hspace := Checks.failsOnly_count32 (fun hcheck =>
    Nat.lt_of_le_of_lt ((h hcheck).2 space hspace).1 (by decide)) _
  types space hspace type htype := type.writes_encode fun hcheck =>
    ⟨depthLimit, ((h hcheck).2 space hspace).2 type htype⟩

/-- What is written of names that keep to the limits. -/
theorem Limited.encode_eq {db : DebugNames} (h : db.Limited) :
    db.heap = .internAll {} db.texts ∧ ∃ body, db.encode = (do
        return magic ++ bytes16 version ++ (← Encode.heap db.heap) ++ body) := by
  have hparts : db.Parts Checks.all.Leaves := parts fun _ => h
  obtain ⟨body, hbody⟩ := hparts.writes_encodeBody.exists_run Checks.not_leaves_all {}
  unfold DebugNames.heap encode
  rw [hbody]
  exact ⟨rfl, body, rfl⟩

theorem Limited.size_heap_le {db : DebugNames} (h : db.Limited) :
    db.heap.size ≤ db.texts.length := by
  rw [h.encode_eq.1]
  exact StringHeap.size_internAll_le db.texts

theorem Limited.mem_heap_iff {db : DebugNames} (h : db.Limited)
    {text : String} : text ∈ db.heap.entries.toList ↔ text ∈ db.texts := by
  rw [h.encode_eq.1]
  exact (StringHeap.entries_internAll db.texts).2 text

/-- Names that keep to the limits are written if none is too long. -/
theorem Limited.exists_encode {db : DebugNames} (h : db.Limited)
    (hheap : db.heap.size < UInt32.size)
    (hshort : ∀ name ∈ db.texts, name.utf8ByteSize < UInt32.size) :
    ∃ bytes, db.encode = .ok bytes := by
  obtain ⟨-, _, hencode⟩ := h.encode_eq
  obtain ⟨texts, htexts⟩ : ∃ texts, Encode.heap db.heap = .ok texts :=
    (Checks.failsOnly_heap (fun _ => hheap) fun _ text htext =>
      hshort text (h.mem_heap_iff.1 htext)).exists_ok Checks.not_leaves_all
  rw [htexts] at hencode
  exact ⟨_, hencode⟩

/-- Only their size can keep debug names from being written. -/
theorem failsOnly_encode (db : DebugNames) : FailsOnly FormatFault.IsSize db.encode := by
  intro fault hfault
  unfold encode at hfault
  split at hfault
  · rename_i reason heap hrun
    cases hfault
    have hparts : db.Parts Checks.allButSizes.Leaves := parts False.elim
    exact Checks.isSize_of_leaves (hparts.writes_encodeBody.error hrun)
  · rename_i body heap hrun
    have hheap : FailsOnly Checks.allButSizes.Leaves (Encode.heap heap) :=
      Checks.failsOnly_heap False.elim False.elim
    exact Checks.isSize_of_leaves ((hheap.bind fun _ => .ok _) fault hfault)

end DebugNames

end Writing

/-- The parts the names of a method are written as. -/
theorem MethodNames.encode_ok {names : MethodNames} {heap later : StringHeap} {bytes : List UInt8}
    (h : names.encode.run heap = .ok bytes later) :
    ∃ name locals labels h₁ h₂, (Encode.heapString names.name).run heap = .ok name h₁
      ∧ (names.locals.mapM LocalName.encode).run h₁ = .ok locals h₂
      ∧ (names.labels.mapM LabelName.encode).run h₂ = .ok labels later
      ∧ names.locals.length < UInt16.size
      ∧ names.labels.length < UInt16.size
      ∧ bytes = name ++ (littleEndian 2 names.locals.length
          ++ (locals.flatten ++ (littleEndian 2 names.labels.length
          ++ labels.flatten))) := by
  obtain ⟨name, h₁, hname, h⟩ := run_bind_ok_iff.1 h
  obtain ⟨_, _, hcount, h⟩ := run_bind_ok_iff.1 h
  obtain ⟨hlocalFits, rfl, rfl⟩ := run_count16_ok_iff.1 hcount
  obtain ⟨_, h₂, hall, h⟩ := run_bind_ok_iff.1 h
  obtain ⟨locals, hlocals, rfl⟩ := run_all_ok_iff.1 hall
  obtain ⟨_, _, hcount, h⟩ := run_bind_ok_iff.1 h
  obtain ⟨hlabelFits, rfl, rfl⟩ := run_count16_ok_iff.1 hcount
  obtain ⟨_, _, hall, h⟩ := run_bind_ok_iff.1 h
  obtain ⟨labels, hlabels, rfl⟩ := run_all_ok_iff.1 hall
  obtain ⟨rfl, rfl⟩ := run_pure_ok_iff.1 h
  refine ⟨name, locals, labels, h₁, h₂, hname, hlocals, hlabels, hlocalFits, hlabelFits, ?_⟩
  simp only [List.append_assoc]

namespace TypeNames

/-- Several types are written one by one. -/
theorem encodeAll_ok {types : List TypeNames} {heap later : StringHeap}
    {pieces : Pieces} (h : (encodeAll types).run heap = .ok pieces later) :
    ∃ outs, (types.mapM encode).run heap = .ok outs later
      ∧ pieces.toList = (outs.map Pieces.toList).flatten := by
  induction types generalizing heap pieces with
  | nil =>
    obtain ⟨rfl, rfl⟩ := run_pure_ok_iff.1 h
    exact ⟨[], run_mapM_nil_ok_iff.2 ⟨rfl, rfl⟩, Pieces.toList_one _⟩
  | cons type rest ih =>
    obtain ⟨first, mid, hfirst, h⟩ := run_bind_ok_iff.1 h
    obtain ⟨_, hothers, rfl⟩ := run_bind_pure_ok_iff.1 h
    obtain ⟨outs, houts, hbytes⟩ := ih hothers
    refine ⟨first :: outs, run_mapM_cons_ok_iff.2 ⟨first, mid, outs, hfirst, houts, rfl⟩, ?_⟩
    rw [Pieces.toList_append, hbytes, List.map_cons, List.flatten_cons]

/-- The parts the names of a type are written as. -/
theorem encode_ok {names : TypeNames} {heap later : StringHeap}
    {pieces : Pieces} (h : names.encode.run heap = .ok pieces later) :
    ∃ name nested methods h₁ h₂, (Encode.heapString names.name).run heap = .ok name h₁
      ∧ (names.nested.mapM encode).run h₁ = .ok nested h₂
      ∧ (names.methods.mapM MethodNames.encode).run h₂ = .ok methods later
      ∧ pieces.toList = name ++ (littleEndian 4 names.nested.length
          ++ ((nested.map Pieces.toList).flatten
          ++ (littleEndian 4 names.methods.length ++ methods.flatten))) := by
  obtain ⟨_, _, _⟩ := names
  obtain ⟨nameBytes, h₁, hname, h⟩ := run_bind_ok_iff.1 h
  obtain ⟨_, _, hcount, h⟩ := run_bind_ok_iff.1 h
  obtain ⟨-, rfl, rfl⟩ := run_count32_ok_iff.1 hcount
  obtain ⟨_, h₂, hinner, h⟩ := run_bind_ok_iff.1 h
  obtain ⟨outs, houts, hbytes⟩ := encodeAll_ok hinner
  obtain ⟨_, _, hcount, h⟩ := run_bind_ok_iff.1 h
  obtain ⟨-, rfl, rfl⟩ := run_count32_ok_iff.1 hcount
  obtain ⟨_, _, hall, h⟩ := run_bind_ok_iff.1 h
  obtain ⟨parts, hparts, rfl⟩ := run_all_ok_iff.1 hall
  obtain ⟨rfl, rfl⟩ := run_pure_ok_iff.1 h
  refine ⟨nameBytes, outs, parts, h₁, h₂, hname, houts, hparts, ?_⟩
  simp only [Pieces.toList_append, Pieces.toList_one, hbytes, List.append_assoc]

end TypeNames

-- ==== reading

section Final

variable {heap later final : StringHeap} {bytes : List UInt8}
  (hgrows : later.Grows final) (hsmall : final.size ≤ countLimit)

include hgrows hsmall

theorem LocalName.reads_encode {entry : LocalName} (h : entry.encode.run heap = .ok bytes later) :
    bytes.length = 6 ∧ Reads (LocalName.decode final) bytes entry := by
  obtain ⟨_, hname, rfl⟩ := run_bind_pure_ok_iff.1 h
  constructor
  · rw [List.length_append, length_heapString hname, length_bytes16]
  · refine (reads_heapString (hgrows.lasts hsmall) hname).bind ?_
    exact (reads_word16 entry.slot).map fun slot =>
      LocalName.mk entry.name slot

theorem LabelName.reads_encode {entry : LabelName} (h : entry.encode.run heap = .ok bytes later) :
    bytes.length = 10 ∧ Reads (LabelName.decode final) bytes entry := by
  obtain ⟨_, hname, rfl⟩ := run_bind_pure_ok_iff.1 h
  constructor
  · simp only [List.length_append, length_heapString hname, length_bytes16, length_bytes32]
  · rw [List.append_assoc]
    refine (reads_heapString (hgrows.lasts hsmall) hname).bind ((reads_word16 entry.index).bind ?_)
    exact (reads_word32 entry.offset).map fun offset =>
      LabelName.mk entry.name entry.index offset

/-- The names of a method are read back. -/
theorem MethodNames.reads_encode {names : MethodNames}
    (h : names.encode.run heap = .ok bytes later) :
    8 ≤ bytes.length ∧ Reads (MethodNames.decode final) bytes names := by
  obtain ⟨_, locals, labels, _, _, hname, hlocals, hlabels,
    hlocalFits, hlabelFits, rfl⟩ := MethodNames.encode_ok h
  obtain ⟨hg₂, hlabels⟩ := wrote_of_mapM (fun entry =>
      (@LabelName.writes_encode (fun _ => True) entry).extends) hlabels
  obtain ⟨hg₁, hlocals⟩ := wrote_of_mapM (fun entry =>
      (@LocalName.writes_encode (fun _ => True) entry).extends) hlocals
  have hg₂ := hg₂.trans hgrows
  constructor
  · simp only [List.length_append, length_heapString hname, length_littleEndian]
    omega
  rw [← List.map_id locals, ← List.map_id labels, ← List.append_nil (List.map id labels).flatten]
  have hlabelRead : Reads (Decode.count16 10 "labels" >>= fun count =>
        times count (fun _ => LabelName.decode final) >>= fun labels =>
          pure ⟨names.name, names.locals, labels⟩)
      (littleEndian 2 names.labels.length ++ ((labels.map id).flatten ++ [])) names :=
    reads_counted_self hlabels (counts_count16 hlabelFits 10 "labels")
      (fun entry _ out ⟨_, _, hrun, hafter⟩ =>
        let ⟨hlength, hread⟩ := LabelName.reads_encode (hafter.trans hgrows) hsmall hrun
        ⟨Nat.le_of_eq hlength.symm, hread⟩) (reads_pure names)
  refine (reads_heapString ((hg₁.trans hg₂).lasts hsmall) hname).bind ?_
  exact reads_counted_self hlocals (counts_count16 hlocalFits 6 "locals")
    (fun entry _ out ⟨_, _, hrun, hafter⟩ =>
      let ⟨hlength, hread⟩ := LocalName.reads_encode (hafter.trans hg₂) hsmall hrun
      ⟨Nat.le_of_eq hlength.symm, hread⟩) hlabelRead

/-- The names of a type are read back if they fit. -/
theorem TypeNames.reads_encode {depth : Nat} {names : TypeNames}
    {pieces : Pieces} (hfits : names.Fits depth) (h : names.encode.run heap = .ok pieces later) :
    12 ≤ pieces.toList.length ∧ Reads (TypeNames.decode final depth) pieces.toList names := by
  induction depth generalizing names heap later pieces with
  | zero => exact hfits.elim
  | succ depth ih =>
    obtain ⟨hnestedLimit, hmethodLimit, hinner⟩ := hfits
    obtain ⟨_, nested, methods, _, _, hname, hnested, hmethods,
      hbytes⟩ := TypeNames.encode_ok h
    obtain ⟨hg₂, hmethods⟩ := wrote_of_mapM (fun method =>
        (@MethodNames.writes_encode .none method False.elim).extends)
        hmethods
    obtain ⟨hg₁, hnested⟩ := wrote_of_mapM TypeNames.extends_encode hnested
    have hg₂ := hg₂.trans hgrows
    rw [hbytes]
    constructor
    · simp only [List.length_append, length_heapString hname, length_littleEndian]
      omega
    rw [← List.map_id methods, ← List.append_nil (List.map id methods).flatten]
    have hself : TypeNames.mk names.name names.nested names.methods = names := by
      cases names
      rfl
    have hmethodRead : Reads (Decode.count32 8 "methods" >>= fun count =>
          times count (fun _ => MethodNames.decode final)
            >>= fun methods => pure ⟨names.name, names.nested, methods⟩)
        (littleEndian 4 names.methods.length ++ ((methods.map id).flatten ++ [])) names :=
      reads_counted_self hmethods (counts_count32 hmethodLimit 8 "methods")
        (fun method _ out ⟨_, _, hrun, hafter⟩ =>
          MethodNames.reads_encode (hafter.trans hgrows) hsmall hrun)
        (hself ▸ reads_pure _)
    refine (reads_heapString ((hg₁.trans hg₂).lasts hsmall) hname).bind ?_
    exact reads_counted_self hnested (counts_count32 hnestedLimit 12 "nested types")
      (fun inner hmem out ⟨_, _, hrun, hafter⟩ =>
        ih (hafter.trans hg₂) (hinner inner hmem) hrun) hmethodRead

/-- The names of a namespace are read back if their types fit. -/
theorem NamespaceNames.reads_encode {names : NamespaceNames}
    (hlimit : names.types.length ≤ countLimit)
    (hfits : ∀ type ∈ names.types, type.Fits DebugNames.depthLimit)
    (h : names.encode.run heap = .ok bytes later) :
    8 ≤ bytes.length ∧ Reads (NamespaceNames.decode final) bytes names := by
  obtain ⟨_, _, hname, h⟩ := run_bind_ok_iff.1 h
  obtain ⟨_, _, hcount, h⟩ := run_bind_ok_iff.1 h
  obtain ⟨-, rfl, rfl⟩ := run_count32_ok_iff.1 hcount
  obtain ⟨_, hpieces, rfl⟩ := run_bind_pure_ok_iff.1 h
  obtain ⟨types, htypes, hbytes⟩ := TypeNames.encodeAll_ok hpieces
  obtain ⟨hg₁, htypes⟩ := wrote_of_mapM TypeNames.extends_encode htypes
  rw [hbytes]
  constructor
  · simp only [List.length_append, length_heapString hname, length_littleEndian]
    omega
  rw [List.append_assoc, ← List.append_nil (List.map _ types).flatten]
  refine (reads_heapString ((hg₁.trans hgrows).lasts hsmall) hname).bind ?_
  exact reads_counted_self htypes (counts_count32 hlimit 12 "types")
    (fun type hmem _ ⟨_, _, hrun, hafter⟩ =>
      TypeNames.reads_encode (hafter.trans hgrows) hsmall (hfits type hmem) hrun) (reads_pure names)

end Final

namespace DebugNames

/-- What a debug name file is made of. -/
theorem encode_ok {db : DebugNames} {bytes : List UInt8} (h : db.encode = .ok bytes) :
    ∃ texts spaces, (db.namespaces.mapM NamespaceNames.encode).run {}
        = .ok spaces db.heap
      ∧ Encode.heap db.heap = .ok texts
      ∧ bytes = magic ++ (bytes16 version ++ (texts
          ++ (littleEndian 4 db.namespaces.length ++ spaces.flatten))) := by
  unfold encode at h
  split at h
  · cases h
  · rename_i body heap hrun
    have hheap : db.heap = heap := by
      unfold DebugNames.heap
      rw [hrun]
    obtain ⟨texts, htexts, hbytes⟩ := bind_ok_iff.1 h
    rw [pure_ok_iff] at hbytes
    obtain ⟨_, _, hcount, hrun⟩ := run_bind_ok_iff.1 hrun
    obtain ⟨-, rfl, rfl⟩ := run_count32_ok_iff.1 hcount
    obtain ⟨_, hall, rfl⟩ := run_bind_pure_ok_iff.1 hrun
    obtain ⟨spaces, hspaces, rfl⟩ := run_all_ok_iff.1 hall
    refine ⟨texts, spaces, hheap ▸ hspaces, hheap ▸ htexts, ?_⟩
    rw [← hbytes]
    simp only [List.append_assoc]

theorem reads_decodeMagic : Reads decodeMagic magic () := by
  intro chunk tail position
  have hfront : (magic ++ tail).take magic.length = magic := List.take_left
  unfold decodeMagic
  rw [run_bind_of_ok (EStateM.run_get _)]
  simp only [hfront]
  exact ((reads_exact magic "magic").map fun _ => ()) chunk tail position

section File

variable {db : DebugNames} {bytes : List UInt8} (h : db.encode = .ok bytes)

include h

/-- Debug names that keep to the limits are read back from their file. -/
theorem decode_of_loadable (hloadable : db.Loadable) : decode bytes = .ok db := by
  obtain ⟨texts, spaces, hspaces, htexts, rfl⟩ := encode_ok h
  have hspaces := (wrote_of_mapM NamespaceNames.extends_encode hspaces).2
  have hread : ∀ space ∈ db.namespaces, ∀ out, space.encode.Wrote db.heap out → _ :=
    fun space hmem out ⟨_, _, hrun, hafter⟩ =>
      NamespaceNames.reads_encode hafter hloadable.heap_le
        (hloadable.types_le space hmem) (hloadable.fits space hmem) hrun
  have heach : ReadsEach (fun _ => NamespaceNames.decode db.heap)
      (spaces.map id) (db.namespaces.map id) :=
    readsEach_of_forall₂ hspaces fun space hmem out hout =>
      (hread space hmem out hout).2
  have hsize : ∀ part ∈ spaces, 8 ≤ part.length :=
    forall_mem_of_forall₂ hspaces fun space hmem out hout =>
      (hread space hmem out hout).1
  have hcount := counts_count32 hloadable.namespaces_le 8 "namespaces"
  rw [List.map_id, List.map_id] at heach
  rw [hspaces.length_eq] at hcount
  have hrun : ∃ later, decodeBody.run
      ⟨"cpdb", magic ++ (bytes16 version ++ (texts
        ++ (littleEndian 4 db.namespaces.length
          ++ (spaces.flatten ++ [])))), 0⟩ = .ok db later := by
    unfold decodeBody
    rw [run_bind_of_ok (reads_decodeMagic "cpdb" _ 0),
      run_bind_of_ok (reads_word16 version "cpdb" _ _), if_neg (by simp),
      run_bind_of_ok (reads_heap htexts hloadable.heap_le "cpdb" _ _),
      hspaces.length_eq, hcount.run_bind hsize heach]
    exact ⟨_, rfl⟩
  obtain ⟨later, hrun⟩ := hrun
  rw [List.append_nil] at hrun
  unfold decode
  rw [hrun]

/-- A file with too large a heap is refused. -/
theorem decode_of_large_heap (hlarge : countLimit < db.heap.size) :
    ∃ fault, decode bytes = .error fault := by
  obtain ⟨texts, spaces, -, htexts, rfl⟩ := encode_ok h
  have hrefuses : Refuses decodeBody (magic ++ (bytes16 version ++ (texts
      ++ (littleEndian 4 db.namespaces.length ++ spaces.flatten)))) := by
    refine reads_decodeMagic.bind_refuses ((reads_word16 version).bind_refuses ?_)
    rw [if_neg (by simp)]
    exact ((refuses_heap htexts hlarge).append _).bind _
  obtain ⟨fault, _, hrun⟩ := hrefuses "cpdb" [] 0
  rw [List.append_nil] at hrun
  unfold decode
  rw [hrun]
  exact ⟨fault, rfl⟩

end File

end DebugNames

namespace Sample

/-- A namespace that comes twice, a local that does, and empty lists. -/
def repeated : DebugNames :=
  ⟨[⟨"App", [⟨"Main", [⟨"Inner", [], [⟨"go", [], [⟨"done", 0, 4⟩]⟩]⟩],
    [⟨"run", [⟨"count", 0⟩, ⟨"count", 0⟩], []⟩]⟩]⟩, ⟨"App", []⟩]⟩

end Sample

end StackAsm
