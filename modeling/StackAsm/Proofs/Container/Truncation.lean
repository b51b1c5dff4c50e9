/-
Files that were cut or have something behind them. The readers of
containers and of debug names are steady, so a file that is read as a
whole is the only one of its prefixes and continuations that is: every
shorter one ends too early, and every longer one has bytes behind its end.

A debug name file starts with a mark that is compared as a whole. Where
the cut lies in the mark, the file does not start with it.
-/
import StackAsm.Proofs.Container.Loading
import StackAsm.Proofs.Container.Stripping

namespace StackAsm

open Decode

-- ==== debug names

theorem LocalName.yields_decode (heap : StringHeap) :
    (LocalName.decode heap).Yields fun _ _ => True := (yields_heapString heap).bind fun _ _ _ =>
    yields_word16.map fun _ _ _ => trivial

theorem LabelName.yields_decode (heap : StringHeap) :
    (LabelName.decode heap).Yields fun _ _ => True :=
  (yields_heapString heap).bind fun _ _ _ => yields_word16.bind
    fun _ _ _ => yields_word32.map fun _ _ _ => trivial

theorem MethodNames.yields_decode (heap : StringHeap) :
    (MethodNames.decode heap).Yields fun _ _ => True := by
  refine (yields_heapString heap).bind fun _ _ _ => ?_
  refine (yields_count16 _ _).bind fun _ _ _ => ?_
  refine (yields_times (fun _ => LocalName.yields_decode heap) _).bind fun _ _ _ => ?_
  refine (yields_count16 _ _).bind fun _ _ _ => ?_
  exact (yields_times (fun _ => LabelName.yields_decode heap) _).map fun _ _ _ => trivial

theorem TypeNames.yields_decode (heap : StringHeap) (depth : Nat) :
    (TypeNames.decode heap depth).Yields fun _ _ => True := by
  induction depth with
  | zero => exact yields_invalid _
  | succ depth ih =>
    refine (yields_heapString heap).bind fun _ _ _ => ?_
    refine (yields_count32 _ _).bind fun _ _ _ => ?_
    refine (yields_times (fun _ => ih) _).bind fun _ _ _ => ?_
    refine (yields_count32 _ _).bind fun _ _ _ => ?_
    exact (yields_times (fun _ => MethodNames.yields_decode heap) _).map fun _ _ _ => trivial

theorem NamespaceNames.yields_decode (heap : StringHeap) :
    (NamespaceNames.decode heap).Yields fun _ _ => True := by
  refine (yields_heapString heap).bind fun _ _ _ => ?_
  refine (yields_count32 _ _).bind fun _ _ _ => ?_
  exact (yields_times (fun _ => TypeNames.yields_decode heap _) _).map fun _ _ _ => trivial

namespace DebugNames

variable {bytes : List UInt8} {db : DebugNames}

/-- Read what stands behind the mark. -/
def readNamespaces : Decode (List NamespaceNames) := do
  let found ← Decode.word16
  if found ≠ version then throw (.unsupportedVersion found)
  let heap ← Decode.heap
  let count ← Decode.count32 8 "namespaces"
  Decode.times count fun _ => NamespaceNames.decode heap

theorem steady_readNamespaces : Steady readNamespaces := by
  have hyields : readNamespaces.Yields fun _ _ => True := by
    refine yields_word16.bind fun _ _ _ => ?_
    split
    · exact yields_of_fails fun _ _ _ h => nomatch h
    refine yields_heap.bind fun heap _ _ => ?_
    refine (yields_count32 _ _).bind fun _ _ _ => ?_
    exact (yields_times (fun _ => NamespaceNames.yields_decode heap) _).imp fun _ _ _ => trivial
  exact hyields.toSteady

/-- A debug name file is its mark and its namespaces, and nothing more. -/
theorem decodeBody_eq : decodeBody = do
      decodeMagic
      let namespaces ← readNamespaces
      Decode.finish
      return DebugNames.mk namespaces := by
  unfold decodeBody readNamespaces
  refine congrArg (decodeMagic >>= ·) (funext fun _ => ?_)
  rw [bind_assoc]
  refine congrArg (word16 >>= ·) (funext fun found => ?_)
  by_cases hversion : found = version
  · simp only [hversion, ne_eq, not_true_eq_false, if_false, bind_assoc]
  · simp only [hversion, ne_eq, not_false_eq_true, if_true]
    rfl

/-- A file that does not start with the mark is refused for what it
starts with. -/
theorem decode_of_take_ne (h : bytes.take magic.length ≠ magic) :
    decode bytes = .error (.invalidMagic (bytes.take magic.length)) := by
  have hmagic : decodeMagic.run ⟨"cpdb", bytes, 0⟩
      = .error (.invalidMagic (bytes.take magic.length))
        ⟨"cpdb", bytes, 0⟩ := by
    unfold decodeMagic
    rw [run_get_bind]
    simp only [if_neg h]
    rfl
  unfold decode decodeBody
  rw [run_bind_of_error hmagic]

/-- A file that is read starts with the mark. -/
theorem eq_magic_append_of_decode (h : decode bytes = .ok db) :
    bytes = magic ++ bytes.drop magic.length := by
  by_cases hmagic : bytes.take magic.length = magic
  · nth_rewrite 1 [← List.take_append_drop magic.length bytes]
    rw [hmagic]
  · rw [decode_of_take_ne hmagic] at h
    cases h

/-- Behind the mark the file is read as a whole. -/
theorem run_decodeBody (rest : List UInt8) : decodeBody.run ⟨"cpdb", magic ++ rest, 0⟩ = (do
          let namespaces ← readNamespaces
          Decode.finish
          return DebugNames.mk namespaces : Decode DebugNames).run
        ⟨"cpdb", rest, magic.length⟩ := by
  rw [decodeBody_eq, run_bind_of_ok (reads_decodeMagic "cpdb" rest 0), Nat.zero_add]

theorem decode_cut {more : List UInt8} (hmore : more ≠ [])
    (h : decode (magic ++ (bytes ++ more)) = .ok db) :
    ∃ context, decode (magic ++ bytes) = .error (.endOfInput context) := by
  unfold decode at h ⊢
  rw [run_decodeBody] at h ⊢
  split at h
  · rename_i db' later hrun
    obtain ⟨context, _, hend⟩ := steady_readNamespaces.whole_cut hmore hrun
    exact ⟨context, by rw [hend]⟩
  · cases h

theorem decode_extended {more : List UInt8} (hmore : more ≠ [])
    (h : decode (magic ++ bytes) = .ok db) :
    decode (magic ++ (bytes ++ more)) = .error (.invalid "cpdb" .trailingBytes) := by
  unfold decode at h ⊢
  rw [run_decodeBody] at h ⊢
  split at h
  · rename_i db' later hrun
    obtain ⟨_, hend⟩ := steady_readNamespaces.whole_extended hmore hrun
    rw [hend]
  · cases h

end DebugNames

-- ==== whole files

namespace Program

variable {set : InstructionSet} {names : Option DebugNames}
  {bytes more : List UInt8} {program : Program}

theorem ofContainer_cut (hmore : more ≠ [])
    (h : ofContainer set names (bytes ++ more) = .ok program) :
    ∃ context, ofContainer set names bytes = .error (.endOfInput context) := by
  obtain ⟨_, hrun⟩ := Container.run_read_of_ofContainer h
  rw [Container.read_eq] at hrun
  obtain ⟨context, _, hend⟩ := (Container.yields_readDeclarations set names).whole_cut hmore hrun
  refine ⟨context, ?_⟩
  unfold ofContainer
  rw [Container.read_eq, hend]

theorem ofContainer_extended (hmore : more ≠ []) (h : ofContainer set names bytes = .ok program) :
    ofContainer set names (bytes ++ more) = .error (.invalid "container" .trailingBytes) := by
  obtain ⟨_, hrun⟩ := Container.run_read_of_ofContainer h
  rw [Container.read_eq] at hrun
  obtain ⟨_, hend⟩ := (Container.yields_readDeclarations set names).whole_extended hmore hrun
  unfold ofContainer
  rw [Container.read_eq, hend]

end Program

/-- A container or debug name file that was cut anywhere is refused
because it ends too early, or for its mark if the cut lies in it; one that
has bytes behind its end is refused for them. -/
theorem cut_or_extended_refused (set : InstructionSet) (names : Option DebugNames) :
    (∀ bytes program, Program.ofContainer set names bytes = .ok program →
      (∀ front, front <+: bytes → front ≠ bytes → ∃ context,
        Program.ofContainer set names front = .error (.endOfInput context))
      ∧ ∀ more, more ≠ [] → Program.ofContainer set names (bytes ++ more)
          = .error (.invalid "container" .trailingBytes))
    ∧ ∀ bytes db, DebugNames.decode bytes = .ok db →
      (∀ front, front <+: bytes → front ≠ bytes → 7 ≤ front.length →
        ∃ context, DebugNames.decode front = .error (.endOfInput context))
      ∧ (∀ front, front <+: bytes → front.length < 7 →
        DebugNames.decode front = .error (.invalidMagic front))
      ∧ ∀ more, more ≠ [] → DebugNames.decode (bytes ++ more)
          = .error (.invalid "cpdb" .trailingBytes) := by
  constructor
  · intro bytes program h
    refine ⟨?_, fun more hmore => Program.ofContainer_extended hmore h⟩
    rintro front ⟨more, rfl⟩ hne
    refine Program.ofContainer_cut ?_ h
    rintro rfl
    exact hne (List.append_nil front).symm
  · intro bytes db h
    have hstart := DebugNames.eq_magic_append_of_decode h
    generalize bytes.drop DebugNames.magic.length = rest at hstart
    subst hstart
    refine ⟨?_, ?_, ?_⟩
    · intro front hfront hne hlong
      -- The mark is in front of the cut.
      have hmark : DebugNames.magic <+: front :=
        List.prefix_of_prefix_length_le (List.prefix_append _ rest) hfront hlong
      obtain ⟨kept, rfl⟩ := hmark
      obtain ⟨more, rfl⟩ := (List.prefix_append_right_inj _).1 hfront
      refine DebugNames.decode_cut ?_ h
      rintro rfl
      exact hne (by rw [List.append_nil])
    · intro front hfront hshort
      have htake : front.take DebugNames.magic.length = front :=
        List.take_of_length_le (Nat.le_of_lt hshort)
      have hne : front.take DebugNames.magic.length ≠ DebugNames.magic := by
        rw [htake]
        rintro rfl
        exact absurd hshort (by decide)
      rw [DebugNames.decode_of_take_ne hne, htake]
    · intro more hmore
      exact DebugNames.decode_extended hmore h

/-- The container and the debug names of the sample, cut and continued. -/
theorem Sample.cut_or_extended_program :
    ∃ image names, program.toContainer ⟨instructionSet, false⟩ = .ok image
      ∧ program.debugNames.encode = .ok names
      ∧ (∃ context, Program.ofContainer instructionSet none image.bytes.dropLast
          = .error (.endOfInput context))
      ∧ Program.ofContainer instructionSet none (image.bytes ++ [0])
        = .error (.invalid "container" .trailingBytes)
      ∧ (∃ context, DebugNames.decode (names.take 7)
        = .error (.endOfInput context))
      ∧ DebugNames.decode (names.take 6)
        = .error (.invalidMagic (names.take 6))
      ∧ DebugNames.decode (names ++ [0])
        = .error (.invalid "cpdb" .trailingBytes) := by
  obtain ⟨image, himage⟩ := toContainer_program false
  obtain ⟨names, hnames, hheap⟩ := encode_debugNames
  have hread := Container.ofContainer_of_loadable himage regular_program
    (loadable_program false) none
  have hdecode := DebugNames.decode_of_loadable hnames
    (Program.loadable_debugNames (loadable_program false) hheap)
  obtain ⟨hcontainer, hdebug⟩ := cut_or_extended_refused instructionSet none
  obtain ⟨hcut, hextended⟩ := hcontainer _ _ hread
  obtain ⟨hcut', hmark, hextended'⟩ := hdebug _ _ hdecode
  -- Neither file is so short that the cut would not be one.
  have hlast : image.bytes.dropLast ≠ image.bytes := by
    intro hsame
    have hlength := congrArg List.length hsame
    rw [List.length_dropLast] at hlength
    have hnil : image.bytes = [] := List.eq_nil_of_length_eq_zero (by omega)
    rw [hnil] at hread
    cases hread
  have hlong : (names.take 7).length = 7 := by
    rw [DebugNames.eq_magic_append_of_decode hdecode]
    rfl
  have hfront : names.take 7 ≠ names := by
    intro hsame
    have hmagic : names = DebugNames.magic := by
      rw [← hsame, DebugNames.eq_magic_append_of_decode hdecode]
      rfl
    rw [hmagic] at hdecode
    cases hdecode
  refine ⟨image, names, himage, hnames, ?_, ?_, ?_, ?_, ?_⟩
  · exact hcut _ (List.dropLast_prefix _) hlast
  · exact hextended [0] (by simp)
  · exact hcut' _ (List.take_prefix 7 names) hfront (Nat.le_of_eq hlong.symm)
  · refine hmark _ (List.take_prefix 6 names) ?_
    exact Nat.lt_of_le_of_lt (List.length_take_le 6 names) (by omega)
  · exact hextended' [0] (by simp)

end StackAsm
