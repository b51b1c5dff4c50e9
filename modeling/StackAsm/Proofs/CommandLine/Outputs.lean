/-
Outputs that stay apart. A path ends in a piece, up to slashes and dots
behind it, and a new extension changes only that piece: what comes out is
`Path.withExtension_eq`. So debug names go to another place than their
container exactly if that ends in a name with another extension
(`Path.same_withExtension_iff`).

A configuration never lets the container take the place of an input. The
debug names it does not look after in the same way: they replace an input,
or the container, that has the path they go to.
-/
import StackAsm.CommandLine.Configuration
import StackAsm.Proofs.Files.Folding
import StackAsm.Proofs.Program.Lookup
import StackAsm.Proofs.Steps

namespace StackAsm

namespace Path

variable {path : String} {text rest front last name stem extension : List Char}

-- ==== the last piece of a path

/-- What stands behind a slash adds its pieces to the parts before. -/
theorem parts_slash (front back : List Char) :
    parts (.ofList (front ++ '/' :: back))
      = (if front = [] then [.root] else parts (.ofList front))
        ++ pieces (.ofList back) := by
  have hleading : leading (front.splitOn '/' ++ back.splitOn '/')
      = if front = [] then [.root] else leading (front.splitOn '/') := by
    obtain ⟨_, pieces, hback⟩ := List.exists_cons_of_ne_nil (List.splitOn_ne_nil '/' back)
    cases front with
    | nil => simp [hback, leading]
    | cons c text =>
      obtain ⟨_, _, -, hcons⟩ := splitOn_cons c text
      rw [hcons]
      by_cases hc : c = '/'
      · simp [hc, leading]
      · simp only [hc, if_false, reduceCtorEq, List.cons_append]
        unfold leading
        split <;> simp_all
  simp only [parts, pieces, String.toList_ofList,
    List.splitOn_append_cons_self, List.filterMap_append, hleading]
  split <;> simp_all [partOf?]

theorem parts_dropTail (h : dropTail text ≠ []) :
    parts (.ofList (dropTail text).reverse) = parts (.ofList text.reverse) := by
  have hstep : ∀ {rest back}, dropTail rest ≠ [] → pieces (.ofList back) = [] →
      parts (.ofList (rest.reverse ++ '/' :: back))
        = parts (.ofList rest.reverse) := by
    intro rest back hrest hback
    have hne : rest ≠ [] := by
      rintro rfl
      exact hrest rfl
    rw [parts_slash, hback, if_neg (by simpa using hne), List.append_nil]
  fun_induction dropTail text with
  | case1 rest ih =>
    rw [ih h, List.reverse_cons]
    exact (hstep h (by decide)).symm
  | case2 rest ih =>
    rw [ih h, List.reverse_cons, List.reverse_cons, List.append_assoc]
    exact (hstep h (by decide)).symm
  | case3 => rfl

theorem dropTail_suffix (text : List Char) : dropTail text <:+ text := by
  fun_induction dropTail text with
  | case1 text ih => exact ih.trans (List.suffix_cons ..)
  | case2 text ih =>
    exact ih.trans ((List.suffix_cons ..).trans (List.suffix_cons ..))
  | case3 => exact List.suffix_rfl

/-- Cutting a text off takes from its tail first. -/
theorem dropTail_drop {count : Nat}
    (hrest : (dropTail text).drop (count - (text.length - (dropTail text).length)) = rest)
    (hfixed : dropTail rest = rest) : dropTail (text.drop count) = rest := by
  fun_induction dropTail text generalizing count with
  | case1 text ih =>
    have hle := (dropTail_suffix text).length_le
    cases count with
    | zero => simpa [dropTail] using hrest
    | succ =>
      refine ih ?_
      rw [← hrest, List.length_cons]
      congr 1
      omega
  | case2 text ih =>
    have hle := (dropTail_suffix text).length_le
    rw [List.length_cons, List.length_cons] at hrest
    match count with
    | 0 => simpa [dropTail] using hrest
    | 1 =>
      rw [Nat.sub_eq_zero_of_le (by omega)] at hrest
      exact hrest
    | count + 2 =>
      refine ih ?_
      rw [← hrest]
      congr 1
      omega
  | case3 =>
    rw [Nat.sub_self, Nat.sub_zero] at hrest
    rw [hrest, hfixed]

/-- Whether a path is `front` with the piece `last` behind it, apart from
slashes and dots at its end. -/
structure EndsIn (path : String) (front last : List Char) : Prop where
  eq : dropTail path.toList.reverse = last.reverse ++ front.reverse
  ne_nil : last ≠ []
  no_slash : '/' ∉ last
  front_slash : ∀ c ∈ front.getLast?, c = '/'

theorem splitLast?_eq_some_iff : splitLast? path = some (front, last) ↔ EndsIn path front last := by
  unfold splitLast?
  constructor
  · intro h
    split at h
    · cases h
    · rename_i last' front' hne hspan
      obtain ⟨hfree, hhead, heq⟩ := Text.span_bne_iff.1 hspan
      cases h
      exact ⟨by simpa using heq, by simpa using hne, by simpa using hfree, by simpa using hhead⟩
  · rintro ⟨heq, hne, hslash, hfront⟩
    have hspan : (dropTail path.toList.reverse).span (· != '/') = (last.reverse, front.reverse) :=
      Text.span_bne_iff.2 ⟨by simpa using hslash, by simpa using hfront, heq⟩
    obtain ⟨_, _, hback⟩ := List.exists_cons_of_ne_nil (mt List.reverse_eq_nil_iff.1 hne)
    simp only [hspan, hback]
    simp [← hback]

theorem splitExtension_eq_some_iff :
    splitExtension name = (stem, some extension)
      ↔ name = stem ++ '.' :: extension ∧ stem ≠ [] ∧ '.' ∉ extension := by
  unfold splitExtension
  constructor
  · intro h
    split at h
    · rename_i old d c front hspan
      obtain ⟨hfree, hhead, heq⟩ := Text.span_bne_iff.1 hspan
      cases h
      obtain rfl := hhead d rfl
      rw [List.reverse_eq_iff] at heq
      simp [heq, hfree]
    · cases h
  · rintro ⟨rfl, hstem, hfree⟩
    have hspan : (stem ++ '.' :: extension).reverse.span (· != '.')
        = (extension.reverse, '.' :: stem.reverse) :=
      Text.span_bne_iff.2 ⟨by simpa using hfree, by simp, by simp⟩
    obtain ⟨c, _, hback⟩ := List.exists_cons_of_ne_nil (mt List.reverse_eq_nil_iff.1 hstem)
    simp only [hspan, hback]
    simp [← hback]

theorem splitExtension_spec {old : Option (List Char)}
    (h : splitExtension name = (stem, old)) (hname : name ≠ []) :
    stem ≠ [] ∧ name = stem ++ old.elim [] ('.' :: ·) := by
  cases old with
  | none =>
    unfold splitExtension at h
    split at h <;> simp_all
  | some =>
    obtain ⟨hsplit, hstem, -⟩ := splitExtension_eq_some_iff.1 h
    exact ⟨hstem, hsplit⟩

/-- A text that ends in a piece has no tail to drop. -/
theorem dropTail_piece (hne : last ≠ []) (hslash : '/' ∉ last) (hdot : last ≠ ['.']) :
    dropTail (last.reverse ++ front.reverse) = last.reverse ++ front.reverse := by
  rw [← List.mem_reverse] at hslash
  rw [Ne, ← List.reverse_eq_nil_iff] at hne
  rw [Ne, ← List.reverse_inj] at hdot
  refine dropTail.eq_3 _ ?_ ?_
  · rintro rest h
    cases hback : last.reverse <;> simp_all
  · rintro rest h
    rcases hback : last.reverse with _ | ⟨c, _ | ⟨d, back⟩⟩ <;> simp_all

theorem EndsIn.ofList (hne : last ≠ []) (hslash : '/' ∉ last) (hdot : last ≠ ['.'])
    (hfront : ∀ c ∈ front.getLast?, c = '/') : EndsIn (.ofList (front ++ last)) front last := by
  refine ⟨?_, hne, hslash, hfront⟩
  rw [String.toList_ofList, List.reverse_append]
  exact dropTail_piece hne hslash hdot

theorem EndsIn.parts_eq (h : EndsIn path front last) (hdot : last ≠ ['.']) :
    parts path = parts (.ofList front) ++ (partOf? last).toList := by
  have hsplit : last.splitOn '/' = [last] := List.splitOn_eq_singleton h.no_slash
  have hpieces : pieces (.ofList last) = (partOf? last).toList := by
    rw [pieces, String.toList_ofList, hsplit]
    cases hpart : partOf? last <;> simp [hpart]
  have hpath : parts path = parts (.ofList (front ++ last)) := by
    have hne : dropTail path.toList.reverse ≠ [] := by
      simp [h.eq, h.ne_nil]
    simpa [h.eq] using (parts_dropTail hne).symm
  rw [hpath, ← hpieces]
  rcases List.eq_nil_or_concat' front with rfl | ⟨outer, c, rfl⟩
  · have hlead : leading [last] = [] := by
      unfold leading
      split <;> simp_all
    rw [parts, List.nil_append, String.toList_ofList, hsplit, hlead, pieces,
      String.toList_ofList, hsplit]
    rfl
  · obtain rfl : c = '/' := h.front_slash c (by simp)
    have hnone : pieces (.ofList []) = [] := by decide
    rw [List.append_assoc, List.singleton_append, parts_slash,
      parts_slash outer [], hnone, List.append_nil]

theorem splitName?_eq_some_iff :
    splitName? path = some (front, name)
      ↔ EndsIn path front name ∧ name ≠ ['.'] ∧ name ≠ ['.', '.'] := by
  rw [splitName?, Option.filter_eq_some_iff, splitLast?_eq_some_iff]
  simp

theorem EndsIn.parts_name (h : EndsIn path front name) (hdot : name ≠ ['.'])
    (hup : name ≠ ['.', '.']) :
    parts path = parts (.ofList front) ++ [.name (.ofList name)] := by
  have hname : partOf? name = some (.name (.ofList name)) := by
    simp [partOf?, h.ne_nil, hdot, hup]
  rw [h.parts_eq hdot, hname]
  rfl

theorem ne_dot (h : stem ≠ []) : stem ++ '.' :: extension ≠ ['.'] := by
  cases stem <;> simp_all

theorem eq_up_iff (h : stem ≠ []) :
    stem ++ '.' :: extension = ['.', '.'] ↔ stem = ['.'] ∧ extension = [] := by
  rcases stem with _ | ⟨c, _ | ⟨d, stem⟩⟩ <;> simp_all

theorem EndsIn.exists_tail (h : EndsIn path front last) :
    ∃ tail, path.toList = front ++ last ++ tail := by
  obtain ⟨tail, htail⟩ := dropTail_suffix path.toList.reverse
  rw [h.eq, eq_comm, List.reverse_eq_iff] at htail
  exact ⟨tail.reverse, by simpa using htail⟩

/-- A path from which as much is cut off as its extension is long. -/
theorem EndsIn.cut {tail : List Char}
    (h : EndsIn path front (stem ++ '.' :: extension)) (hstem : stem ≠ [])
    (htail : path.toList = front ++ (stem ++ '.' :: extension) ++ tail) :
    EndsIn (.ofList (path.toList.take (path.toList.length - extension.length)))
      front (stem ++ '.' :: extension.take tail.length) := by
  have hkept : '/' ∉ stem ++ '.' :: extension.take tail.length := by
    have hslash := h.no_slash
    grind [List.mem_of_mem_take]
  refine ⟨?_, by simp, hkept, h.front_slash⟩
  have hlength : path.toList.reverse.length
      - ((stem ++ '.' :: extension).reverse ++ front.reverse).length
        = tail.length := by
    simp only [htail, List.length_append, List.length_reverse]
    omega
  rw [String.toList_ofList, ← List.drop_reverse]
  refine dropTail_drop ?_ (dropTail_piece (by simp) hkept (ne_dot hstem))
  rw [h.eq, hlength, List.drop_append_of_le_length (by simp; omega), List.drop_reverse]
  congr 2
  rcases Nat.le_total tail.length extension.length with h | h
  · have hcut : (stem ++ '.' :: extension).length - (extension.length - tail.length)
          = stem.length + (tail.length + 1) := by
      simp only [List.length_append, List.length_cons]
      omega
    rw [hcut, List.take_length_add_append, List.take_succ_cons]
  · rw [Nat.sub_eq_zero_of_le h, Nat.sub_zero, List.take_length, List.take_of_length_le h]

/-- A new extension goes behind the stem. Only where the stem is a dot and
nothing follows the name, two dots are left of it. -/
theorem withExtension_eq {extension : String} (h : splitName? path = some (front, name)) :
    withExtension path extension = if (splitExtension name).1 = ['.'] ∧ path.toList = front ++ name
        then .ofList (front ++ ['.', '.'])
        else .ofList (front ++ (splitExtension name).1) ++ "." ++ extension := by
  obtain ⟨hends, hdot, _⟩ := splitName?_eq_some_iff.1 h
  rcases hsplit : splitExtension name with ⟨stem, _ | old⟩
  · obtain ⟨-, hname⟩ := splitExtension_spec hsplit hends.ne_nil
    obtain rfl : name = stem := by simpa using hname
    simp only [withExtension, setExtension, h, Option.bind_some, hsplit]
    rw [if_neg fun hodd => hdot hodd.1]
  · obtain ⟨rfl, hstem, hfree⟩ := splitExtension_eq_some_iff.1 hsplit
    obtain ⟨tail, htail⟩ := hends.exists_tail
    have hcut := hends.cut hstem htail
    have hodd : stem ++ '.' :: old.take tail.length = ['.', '.']
        ↔ stem = ['.'] ∧ path.toList = front ++ (stem ++ '.' :: old) := by
      rw [eq_up_iff hstem, htail]
      constructor <;> rintro ⟨rfl, hrest⟩ <;> simp_all
    simp only [withExtension, setExtension, h, Option.bind_some, hsplit]
    by_cases hplain : stem = ['.'] ∧ path.toList = front ++ (stem ++ '.' :: old)
    · rw [hodd.2 hplain, ← splitLast?_eq_some_iff] at hcut
      have hname : splitName? (.ofList (path.toList.take
          (path.toList.length - old.length))) = none := by
        rw [splitName?, hcut]
        rfl
      rw [if_pos hplain, hname]
      obtain ⟨rfl, hplain⟩ := hplain
      have hlength : path.toList.length - old.length = front.length + 2 := by
        simp [hplain]
        omega
      simp only [hlength]
      rw [hplain, List.take_length_add_append]
      rfl
    · have hname := splitName?_eq_some_iff.2 ⟨hcut, ne_dot hstem, mt hodd.1 hplain⟩
      have hkept : '.' ∉ old.take tail.length := fun hmem =>
        hfree (List.mem_of_mem_take hmem)
      simp only [if_neg hplain, hname, splitExtension_eq_some_iff.2 ⟨rfl, hstem, hkept⟩]

/-- Whether a path becomes another one when it is given an extension: it
ends in a name, and the name has another extension or is left as two
dots. -/
def Changes (path : String) (extension : List Char) : Prop :=
  ∃ front name, splitName? path = some (front, name)
    ∧ ((splitExtension name).2 = some extension →
        (splitExtension name).1 = ['.'] ∧ path.toList = front ++ name)

theorem same_withExtension_iff (hne : extension ≠ []) (hslash : '/' ∉ extension) :
    same path (withExtension path (.ofList extension)) = false ↔ Changes path extension := by
  rw [same, beq_eq_false_iff_ne, Changes]
  cases h : splitName? path with
  | none => simp [withExtension, setExtension, h]
  | some split =>
    obtain ⟨front, name⟩ := split
    obtain ⟨hends, hdot, hup⟩ := splitName?_eq_some_iff.1 h
    rw [withExtension_eq h, hends.parts_name hdot hup]
    split
    · -- two dots are left of the name, and these are no name any more
      rename_i hodd
      have hend : EndsIn (.ofList (front ++ ['.', '.'])) front ['.', '.'] :=
        .ofList (by decide) (by decide) (by decide) hends.front_slash
      rw [hend.parts_eq (by decide)]
      simp [hodd, partOf?]
    · rename_i hodd
      rcases hsplit : splitExtension name with ⟨stem, old⟩
      obtain ⟨hstem, hname⟩ := splitExtension_spec hsplit hends.ne_nil
      have hend : EndsIn (.ofList (front ++ stem) ++ "." ++ .ofList extension) front
          (stem ++ '.' :: extension) := by
        have hfree := hends.no_slash
        rw [hname, List.mem_append, not_or] at hfree
        have htext : String.ofList (front ++ stem) ++ "." ++ .ofList extension
              = .ofList (front ++ (stem ++ '.' :: extension)) := by
          simp [String.append_assoc]
        rw [htext]
        exact .ofList (by simp) (by simp [hfree, hslash]) (ne_dot hstem) hends.front_slash
      rw [hend.parts_name (ne_dot hstem) fun h => hne ((eq_up_iff hstem).1 h).2]
      have hsame : String.ofList name = .ofList (stem ++ '.' :: extension)
          ↔ old = some extension := by
        rw [String.ofList_inj, hname]
        cases old <;> simp
      simp only [ne_eq, List.append_cancel_left_eq, List.cons.injEq,
        Part.name.injEq, and_true, hsame]
      rw [hsplit] at hodd
      constructor
      · intro hold
        refine ⟨front, name, rfl, fun hsame => absurd ?_ hold⟩
        rwa [hsplit] at hsame
      · rintro ⟨_, _, hsplit', hrest⟩ hold
        cases hsplit'
        rw [hsplit] at hrest
        exact hodd (hrest hold)

end Path

-- ==== configurations

namespace CommandLine

/-- Whether a configuration writes to different places, and to none of its
inputs. -/
structure Configuration.KeepsApart (config : Configuration) : Prop where
  outputs : ∀ debug ∈ config.debugOutput, Path.same config.output debug = false
  output_inputs : ∀ input ∈ config.inputs, Path.same config.output input = false
  debug_inputs : ∀ debug ∈ config.debugOutput, ∀ input ∈ config.inputs,
    Path.same debug input = false

namespace Given

variable {given : Given} {tree : FileTree} {environment : Environment} {config : Configuration}

theorem configure_spec (h : given.configure tree environment = .ok config) :
    (∀ input ∈ config.inputs, Path.same config.output input = false)
      ∧ config.debugOutput = if config.build.omitDebugNames then none
        else some (debugPath config.output) := by
  obtain ⟨_, -, h⟩ := bind_ok_iff.1 h
  obtain ⟨inputs, -, h⟩ := bind_ok_iff.1 h
  cases inputs with
  | nil => cases h
  | cons =>
    dsimp only at h
    split at h
    · cases h
    · rename_i hany
      cases pure_ok_iff.1 h
      exact ⟨by simpa using hany, rfl⟩

/-- The container never takes the place of an input. The debug names stay
away from the container and from all inputs exactly if the container does
not have their extension and no input is the path they go to. -/
theorem configure_keeps_apart_iff (h : given.configure tree environment = .ok config) :
    (∀ input ∈ config.inputs, Path.same config.output input = false)
      ∧ (config.KeepsApart
        ↔ config.build.omitDebugNames = true
          ∨ Path.Changes config.output debugExtension.toList
            ∧ ∀ input ∈ config.inputs,
              Path.same (debugPath config.output) input = false) := by
  obtain ⟨hinputs, hdebug⟩ := configure_spec h
  have hchanges : Path.same config.output (debugPath config.output) = false
      ↔ Path.Changes config.output debugExtension.toList :=
    Path.same_withExtension_iff (by decide) (by decide)
  refine ⟨hinputs, ?_⟩
  cases homit : config.build.omitDebugNames with
  | true =>
    rw [homit, if_pos rfl] at hdebug
    simp only [true_or, iff_true]
    exact ⟨by simp [hdebug], hinputs, by simp [hdebug]⟩
  | false =>
    rw [homit] at hdebug
    rw [← hchanges]
    constructor
    · rintro ⟨houtputs, -, hdebug_inputs⟩
      exact .inr ⟨houtputs _ hdebug, hdebug_inputs _ hdebug⟩
    · rintro (hnot | ⟨houtputs, hdebug_inputs⟩)
      · cases hnot
      · refine ⟨?_, hinputs, ?_⟩ <;> rw [hdebug] <;> rintro _ ⟨⟩
        · exact houtputs
        · exact hdebug_inputs

end Given

end CommandLine

namespace Sample

open CommandLine

def emptyTree : FileTree := ⟨.directory "" [] 0, [], 0⟩

/-- One input, and an output if it is given. -/
def given (input : String) (output : Option String) : Given :=
  { inputs := [input]
    settings := output.toList.map fun path => (.output, path) }

def config (input output debug : String) : Configuration where
  inputs := [input]
  output := output
  debugOutput := some debug
  stackCode := none
  listing := none
  force := false
  verbose := false
  format := .text
  errorFile := none
  build := {}

theorem configure_keeps_apart :
    (given "main.casm" (some "a.out")).configure emptyTree []
        = .ok (config "main.casm" "a.out" "a.cpdb")
      ∧ (config "main.casm" "a.out" "a.cpdb").KeepsApart := by
  have h : (given "main.casm" (some "a.out")).configure emptyTree []
      = .ok (config "main.casm" "a.out" "a.cpdb") := by
    decide
  refine ⟨h, (Given.configure_keeps_apart_iff h).2.2
    (.inr ⟨⟨[], "a.out".toList, by decide, by decide⟩, by decide⟩)⟩

/-- Debug names go to the place of an input, or to that of the container,
which has their extension. -/
theorem configure_overwrites :
    (given "main.cpdb" none).configure emptyTree []
        = .ok (config "main.cpdb" "main.cpbc" "main.cpdb")
      ∧ ¬ (config "main.cpdb" "main.cpbc" "main.cpdb").KeepsApart
      ∧ (given "main.casm" (some "a.cpdb")).configure emptyTree []
        = .ok (config "main.casm" "a.cpdb" "a.cpdb")
      ∧ ¬ (config "main.casm" "a.cpdb" "a.cpdb").KeepsApart := by
  refine ⟨by decide, fun h => ?_, by decide, fun h => ?_⟩
  · exact absurd (h.debug_inputs _ rfl _ (.head _)) (by decide)
  · exact absurd (h.outputs _ rfl) (by decide)

end Sample

end StackAsm
