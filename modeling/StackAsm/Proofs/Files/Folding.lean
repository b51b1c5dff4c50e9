/-
Folded paths, and where they lead. A path leads from a directory to a
place, part by part. Its course says where to: so many directories up, and
from there down along names (`Path.follow_eq`). Folding keeps the names
but only tells an odd number of steps up from an even one, since one `..`
takes the one before it away (`Path.follow_fold`). So a path is folded to
one that leads to the same place exactly if it is absolute or goes up at
most once.
-/
import Mathlib.Data.List.Basic
import StackAsm.Build.Sources

namespace StackAsm.Path

-- ==== where a path leads

/-- Where a part leads from a directory. A directory is the names on the
way to it, innermost first; above the root there is nothing. -/
def Part.lead (directory : List String) : Part → List String
  | .root => []
  | .here => directory
  | .up => directory.tail
  | .name text => text :: directory

/-- Where a path leads from a directory. -/
def follow (path : String) (base : List String) : List String := (parts path).foldl Part.lead base

/-- How many directories a way goes up, and the names it goes down from
there, innermost first. -/
structure Course where
  ups : Nat := 0
  names : List String := []

def Course.step (course : Course) : Part → Course
  | .name text => { course with names := text :: course.names }
  | .up =>
    if course.names = [] then { course with ups := course.ups + 1 }
    else { course with names := course.names.tail }
  | _ => course

/-- The course of a path; at the root of an absolute one, going up is
counted too. -/
def course (path : String) : Course := (parts path).foldl Course.step {}

-- ==== parts of a path

/-- Whether a part is what its text stands for between slashes. -/
def Part.IsPiece (part : Part) : Prop :=
  '/' ∉ part.text.toList ∧ partOf? part.text.toList = some part

/-- What a path names between its slashes. -/
def pieces (path : String) : List Part := (path.toList.splitOn '/').filterMap partOf?

theorem splitOn_cons (c : Char) (text : List Char) :
    ∃ first rest, text.splitOn '/' = first :: rest
      ∧ (c :: text).splitOn '/' = if c = '/' then [] :: first :: rest
        else (c :: first) :: rest := by
  obtain ⟨first, rest, hsplit⟩ := List.exists_cons_of_ne_nil (List.splitOn_ne_nil '/' text)
  refine ⟨first, rest, hsplit, ?_⟩
  rw [List.splitOn_cons_eq_if_modifyHead, hsplit]
  simp

theorem isPiece_of_mem {path : String} {part : Part} (h : part ∈ pieces path) : part.IsPiece := by
  have hslash : ∀ text : List Char, ∀ piece ∈ text.splitOn '/', '/' ∉ piece := by
    intro text
    induction text with
    | nil => simp
    | cons c text =>
      obtain ⟨_, _, _, _⟩ := splitOn_cons c text
      grind
  obtain ⟨piece, hpiece, hpart⟩ := List.mem_filterMap.1 h
  have hnone := hslash path.toList piece hpiece
  unfold partOf? at hpart
  split at hpart
  · cases hpart
  · split at hpart
    · cases hpart
      exact ⟨by decide, by decide⟩
    · cases hpart
      rename_i hne hup
      simp [Part.IsPiece, Part.text, partOf?, hne, hup, hnone]

/-- A path has one way to start, and pieces behind it. -/
theorem foldl_parts {β : Type} (f : β → Part → β)
    (hhere : ∀ b, f b .here = b) (b : β) (path : String) :
    (parts path).foldl f b = (pieces path).foldl f (if isAbsolute path then f b .root else b) := by
  have hlead : (leading (path.toList.splitOn '/')).foldl f b
      = if isAbsolute path then f b .root else b := by
    unfold isAbsolute
    cases path.toList with
    | nil => rfl
    | cons c text =>
      obtain ⟨_, _, -, hcons⟩ := splitOn_cons c text
      rw [hcons]
      by_cases hc : c = '/'
      · simp [hc, leading]
      · simp only [hc]
        unfold leading
        split <;> simp_all
  rw [parts, List.foldl_append, hlead, pieces]

/-- Pieces put together are the parts of what they make. -/
theorem parts_render (absolute : Bool) {pieces : List Part} (h : ∀ part ∈ pieces, part.IsPiece) :
    parts (render ((if absolute then [.root] else []) ++ pieces))
      = (if absolute then [.root] else []) ++ pieces := by
  cases pieces with
  | nil => cases absolute <;> decide
  | cons first rest =>
    let joined := "/".intercalate ((first :: rest).map Part.text)
    -- no piece has a slash in it, so they come apart where they were joined
    have hsplit : joined.toList.splitOn '/' = (first :: rest).map (·.text.toList) := by
      rw [String.toList_intercalate, List.map_map]
      refine List.splitOn_intercalate '/' ?_ (List.cons_ne_nil _ _)
      exact List.forall_mem_map.2 fun part hpart => (h part hpart).1
    have hpieces : (joined.toList.splitOn '/').filterMap partOf? = first :: rest := by
      rw [hsplit, List.filterMap_map]
      exact (List.filterMap_congr fun part hpart =>
        (h part hpart).2).trans List.filterMap_some
    have hfirst := (h first (.head _)).2
    cases absolute with
    | true =>
      have hroot : ("/" ++ joined).toList.splitOn '/' = [] :: joined.toList.splitOn '/' := by
        rw [String.toList_append]
        exact List.splitOn_append_cons_self [] joined.toList
      show parts ("/" ++ joined) = .root :: first :: rest
      rw [parts, hroot, List.filterMap_cons_none rfl, hpieces, hsplit]
      rfl
    | false =>
      have hrender : render (first :: rest) = joined := by
        cases first with
        | root => cases hfirst
        | _ => rfl
      have hlead : leading ((first :: rest).map (·.text.toList)) = [] := by
        unfold leading
        split <;> simp_all [partOf?]
      show parts (render (first :: rest)) = first :: rest
      rw [parts, hrender, hpieces, hsplit, hlead, List.nil_append]

-- ==== courses

/-- What is done piece by piece follows the course of the pieces, if a
step up and a step down do. -/
theorem foldl_view {β : Type} {f : β → Part → β} (view : Course → β)
    (hup : ∀ course, f (view course) .up = view (course.step .up))
    (hname : ∀ course text, f (view course) (.name text) = view (course.step (.name text)))
    {pieces : List Part} (h : ∀ part ∈ pieces, part.IsPiece) (course : Course) :
    pieces.foldl f (view course) = view (pieces.foldl Course.step course) := by
  induction pieces generalizing course with
  | nil => rfl
  | cons part pieces ih =>
    rw [List.forall_mem_cons] at h
    have hstep : f (view course) part = view (course.step part) := by
      cases part with
      | up => exact hup course
      | name text => exact hname course text
      | root => cases h.1.2
      | here => cases h.1.2
    rw [List.foldl_cons, List.foldl_cons, hstep, ih h.2]

theorem course_eq (path : String) : course path = (pieces path).foldl Course.step {} := by
  rw [course, foldl_parts _ fun _ => rfl]
  split <;> rfl

/-- A path leads along its course. -/
theorem follow_eq (path : String) (base : List String) :
    follow path base = (course path).names
      ++ (if isAbsolute path then [] else base).drop (course path).ups := by
  let start := if isAbsolute path then [] else base
  rw [follow, foldl_parts _ fun _ => rfl, course_eq]
  refine foldl_view (fun course => course.names ++ start.drop course.ups)
    ?_ (fun _ _ => rfl) (fun _ => isPiece_of_mem) {}
  rintro ⟨_, _ | ⟨_, _⟩⟩
  · simp [Part.lead, Course.step]
  · rfl

/-- What folding makes of a course, innermost first: of the steps up the
last is kept if their number is odd. -/
def Course.folded (course : Course) : List Part :=
  course.names.map .name ++ List.replicate (course.ups % 2) .up

theorem foldParts_eq (path : String) :
    foldParts (parts path)
      = (if isAbsolute path then [.root] else [])
        ++ (course path).folded.reverse := by
  let start : List Part := if isAbsolute path then [.root] else []
  have hfold : (parts path).foldl foldStep [] = (course path).folded ++ start := by
    rw [foldl_parts _ fun _ => rfl, course_eq]
    refine foldl_view (fun course => course.folded ++ start) ?_
      (fun _ _ => rfl) (fun _ => isPiece_of_mem) {}
    rintro ⟨ups, _ | ⟨_, _⟩⟩
    · rcases Nat.mod_two_eq_zero_or_one ups with hups | hups <;> by_cases h : isAbsolute path <;>
        simp [Course.folded, foldStep, Course.step, hups, Nat.add_mod, h, start]
    · rfl
  rw [foldParts, hfold, List.reverse_append]
  simp only [start]
  split <;> rfl

theorem parts_fold (path : String) : parts (fold path) = foldParts (parts path) := by
  rw [fold, foldParts_eq, parts_render]
  have hnames : ∀ text ∈ (course path).names, (Part.name text).IsPiece := by
    rw [course_eq]
    refine List.foldlRecOn (motive := fun course : Course =>
      ∀ text ∈ course.names, (Part.name text).IsPiece) _ _ nofun ?_
    intro course hcourse part hpart
    have hpiece := isPiece_of_mem hpart
    cases part <;> grind [Course.step, List.mem_of_mem_tail]
  intro part hpart
  simp only [Course.folded, List.mem_reverse, List.mem_append, List.mem_map,
    List.mem_replicate] at hpart
  rcases hpart with ⟨text, htext, rfl⟩ | ⟨-, rfl⟩
  · exact hnames text htext
  · exact ⟨by decide, by decide⟩

/-- A folded path leads along the same names, but of the steps up it takes
only the last, and that only if their number is odd. -/
theorem follow_fold (path : String) (base : List String) :
    follow (fold path) base = (course path).names
      ++ (if isAbsolute path then [] else base).drop
        ((course path).ups % 2) := by
  rw [follow, parts_fold, foldParts_eq, List.foldl_append,
    List.foldl_reverse, Course.folded, List.foldr_append, List.foldr_map]
  refine (List.foldr_cons_eq_append' ..).trans (congrArg _ ?_)
  rcases Nat.mod_two_eq_zero_or_one (course path).ups with h | h <;>
    rw [h] <;> split <;> simp [Part.lead]

-- ==== places and keys

/-- Whether two paths lead to one place from every directory that is deep
enough for them. -/
def LeadAlike (path other : String) : Prop :=
  ∀ base : List String, (course path).ups ≤ base.length →
    (course other).ups ≤ base.length → follow path base = follow other base

/-- Whether a path goes up at most once, and from the root not at all. -/
def RisesOnce (path : String) : Prop := (course path).ups ≤ if isAbsolute path then 0 else 1

theorem RisesOnce.ups_le {path : String} (h : RisesOnce path) :
    (course path).ups ≤ 1 := Nat.le_trans h (by split <;> decide)

theorem follow_fold_self {path : String} (h : isAbsolute path = true ∨ (course path).ups ≤ 1)
    (base : List String) : follow (fold path) base = follow path base := by
  rw [follow_fold, follow_eq]
  rcases h with h | h
  · simp [h]
  · rw [Nat.mod_eq_of_lt (Nat.lt_succ_of_le h)]

theorem leadAlike_fold_iff (path : String) :
    LeadAlike (fold path) path ↔ isAbsolute path = true ∨ (course path).ups ≤ 1 := by
  refine ⟨fun h => ?_, fun h base _ _ => follow_fold_self h base⟩
  by_cases habsolute : isAbsolute path = true
  · exact .inl habsolute
  · let depth := (course path).ups + (course (fold path)).ups
    have hplace := congrArg List.length (h (List.replicate depth "")
      (by simp [depth]) (by simp [depth]))
    rw [follow_fold, follow_eq, if_neg habsolute] at hplace
    simp only [List.length_append, List.length_drop, List.length_replicate, depth] at hplace
    omega

/-- A course with at most one step up, and none from the root, is known
from where it leads. -/
theorem course_unique {absolute absolute' : Bool} {course course' : Course}
    (hups : course.ups ≤ if absolute then 0 else 1)
    (hups' : course'.ups ≤ if absolute' then 0 else 1)
    (h : ∀ base : List String, 1 ≤ base.length →
      course.names ++ (if absolute then [] else base).drop course.ups
        = course'.names
          ++ (if absolute' then [] else base).drop course'.ups) :
    absolute = absolute' ∧ course = course' := by
  obtain ⟨ups, _⟩ := course
  obtain ⟨ups', _⟩ := course'
  have hone := h ["a"] (by decide)
  have hother := h ["b"] (by decide)
  have hlength := congrArg List.length hone
  have hlonger := congrArg List.length (h ["a", "b"] (by decide))
  clear h
  cases absolute <;> cases absolute' <;>
    simp only [Bool.false_eq_true, if_false, if_true, List.length_append,
      List.length_drop, List.length_cons, List.length_nil] at *
  · obtain rfl : ups = ups' := by
      -- One step up more would take away the only name that differs.
      by_contra hne
      obtain ⟨rfl, rfl⟩ | ⟨rfl, rfl⟩ : ups = 0 ∧ ups' = 1 ∨ ups = 1 ∧ ups' = 0 := by omega
      · simpa using hone.trans hother.symm
      · simpa using hone.symm.trans hother
    exact ⟨trivial, congrArg _ (List.append_cancel_right hone)⟩
  · omega
  · omega
  · obtain ⟨rfl, rfl⟩ : ups = 0 ∧ ups' = 0 := by omega
    simpa using hone

theorem fold_eq_iff {path other : String} (hpath : RisesOnce path) (hother : RisesOnce other) :
    fold path = fold other ↔ LeadAlike path other := by
  constructor
  · intro h base _ _
    rw [← follow_fold_self (.inr hpath.ups_le), h, follow_fold_self (.inr hother.ups_le)]
  · intro h
    obtain ⟨habsolute, hcourse⟩ := course_unique hpath hother fun base hbase => by
        rw [← follow_eq, ← follow_eq]
        exact h base (Nat.le_trans hpath.ups_le hbase) (Nat.le_trans hother.ups_le hbase)
    rw [fold, fold, foldParts_eq, foldParts_eq, habsolute, hcourse]

theorem load_ofFiles_append (files : List (String × String)) (path text other : String) :
    (SourceTexts.ofFiles (files ++ [(path, text)])).load other
      = if fold path = fold other then .ok text
        else (SourceTexts.ofFiles files).load other := by
  simp only [SourceTexts.load, SourceTexts.text?_eq, SourceTexts.ofFiles,
    List.reverse_append, List.reverse_singleton, List.singleton_append,
    List.map_cons, List.lookup_cons]
  by_cases h : fold path = fold other
  · simp [h]
  · simp [h, beq_false_of_ne (Ne.symm h)]

/-- A path keeps its place when folded exactly if it is absolute or goes
up at most once. Of two paths that go up at most once, and from the root
not at all, the keys are equal exactly if the places are: a text is found
under every spelling of its place and hides no other. -/
theorem fold_keeps_place (path other : String) :
    (LeadAlike (fold path) path
        ↔ isAbsolute path = true ∨ (course path).ups ≤ 1)
      ∧ (RisesOnce path → RisesOnce other → (fold path = fold other ↔ LeadAlike path other)
        ∧ ∀ files text,
          let found := (SourceTexts.ofFiles (files ++ [(path, text)])).load other
          (LeadAlike path other → found = .ok text)
          ∧ (¬ LeadAlike path other → found = (SourceTexts.ofFiles files).load other)) := by
  refine ⟨leadAlike_fold_iff path, fun hpath hother => ?_⟩
  have hkeys := fold_eq_iff hpath hother
  refine ⟨hkeys, fun files text => ?_⟩
  rw [load_ofFiles_append, ← hkeys]
  exact ⟨fun h => if_pos h, fun h => if_neg h⟩

/-- Two steps up are folded to none, so that two places get one key; and
a step up at the root is kept, so that one place gets two. -/
theorem fold_loses_place :
    ¬ LeadAlike (fold "../..") "../.."
      ∧ fold "../../a" = fold "a" ∧ ¬ LeadAlike "../../a" "a"
      ∧ fold "/.." ≠ fold "/" ∧ LeadAlike "/.." "/" := by
  refine ⟨fun h => ?_, by decide, fun h => ?_, by decide, fun _ _ _ => rfl⟩
  · exact absurd (h ["b", "c"] (by decide) (by decide)) (by decide)
  · exact absurd (h ["b", "c"] (by decide) (by decide)) (by decide)

end StackAsm.Path
