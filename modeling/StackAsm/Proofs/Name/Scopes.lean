/-
The scope stack, block by block. Taken by itself a block has a full path
and the imports and aliases that it adds (`ScopeBlock`). What is in view is
what the open blocks add, the innermost first, and leaving a block drops
it. The stack keeps for every open block all that is in view there, and
hands out a snapshot again until something changes. Whatever the calls,
both answer alike (`ScopeStack.follows_blocks`).

Two things hold of every stack that calls can make (`ScopeStack.Sound`): no
segment of a path is empty, and the snapshot that is kept is what is
visible.
-/
import StackAsm.Name.ScopeStack
import StackAsm.Proofs.Program.Names

namespace StackAsm

-- ==== soundness

namespace ScopeStack

variable {stack next : ScopeStack} {name : String}

/-- Whether no segment of a path in view or around it is empty, and the
snapshot that is kept is what is visible. -/
structure Sound (stack : ScopeStack) : Prop where
  segments : ∀ view ∈ stack.view :: stack.outer, ∀ segment ∈ view.segments, segment ≠ ""
  fresh : ∀ scope, stack.kept = some scope → scope = stack.visible scope.typePath

theorem sound_empty : ({} : ScopeStack).Sound := ⟨List.forall_mem_cons.2 ⟨nofun, nofun⟩, nofun⟩

/-- A name declared here is set off by a dot, if there is a path. -/
theorem qualify_eq (h : stack.Sound) (name : String) :
    stack.qualify name = Text.join stack.path name := by
  unfold qualify
  split
  · rename_i hempty
    rw [path, List.isEmpty_iff.1 hempty]
    rfl
  · rename_i hne
    rw [List.isEmpty_iff] at hne
    refine (Text.join_of_ne_empty (Text.intercalate_ne_empty ?_ ?_) name).symm
    · rwa [Ne, List.reverse_eq_nil_iff]
    · intro segment hsegment
      exact h.segments stack.view (.head _) segment (List.mem_reverse.1 hsegment)

theorem snapshot_eq (h : stack.Sound) (typePath : Option String) :
    (stack.snapshot typePath).1 = stack.visible typePath := by
  unfold snapshot
  split
  · rename_i scope hkept
    obtain ⟨hkept, hpath⟩ := Option.filter_eq_some_iff.1 hkept
    rw [h.fresh scope hkept, eq_of_beq hpath]
  · rfl

theorem Sound.snapshot (h : stack.Sound) (typePath : Option String) :
    (stack.snapshot typePath).2.Sound := by
  unfold ScopeStack.snapshot
  split
  · exact h
  · refine ⟨h.segments, fun _ hscope => ?_⟩
    cases hscope
    rfl

theorem Sound.addImport (h : stack.Sound) (path : String) : (stack.addImport path).Sound := by
  unfold ScopeStack.addImport
  split
  · exact h
  · exact ⟨List.forall_mem_cons.2 (List.forall_mem_cons.1 h.segments), nofun⟩

theorem Sound.addAlias (h : stack.Sound) (name target : String) :
    (stack.addAlias name target).Sound :=
  ⟨List.forall_mem_cons.2 (List.forall_mem_cons.1 h.segments), nofun⟩

/-- Leaving a block uncovers what is around it. -/
theorem leave?_cases (stack : ScopeStack) :
    (stack.outer = [] ∧ stack.leave? = none)
      ∨ ∃ left, stack.leave? = some left
        ∧ stack.outer = left.view :: left.outer ∧ left.kept = none := by
  unfold leave?
  split
  · rename_i houter
    exact .inl ⟨houter, rfl⟩
  · rename_i view outer houter
    exact .inr ⟨_, rfl, houter, rfl⟩

theorem Sound.leave (h : stack.Sound) : stack.leave.Sound := by
  unfold ScopeStack.leave
  rcases stack.leave?_cases with ⟨-, hnone⟩ | ⟨_, hleft, houter, hkept⟩
  · rw [hnone]
    exact h
  · rw [hleft]
    have hsegments := h.segments
    rw [houter] at hsegments
    refine ⟨(List.forall_mem_cons.1 hsegments).2, fun _ hscope => ?_⟩
    rw [Option.getD_some, hkept] at hscope
    cases hscope

/-- A name that is accepted has parts, none of them empty. -/
theorem parts_of_segments {parts : List String} (h : PathFault.segments name = .ok parts) :
    Text.dottedParts name = parts ∧ ∀ segment ∈ parts, segment ≠ "" := by
  unfold PathFault.segments at h
  split at h
  · cases h
  · simp only at h
    split at h
    · cases h
    · rename_i hany
      cases h
      refine ⟨rfl, fun segment hsegment hempty => ?_⟩
      exact hany (List.any_eq_true.2 ⟨segment, hsegment, String.isEmpty_iff.2 hempty⟩)

/-- Entering a namespace opens a block, if its name is accepted. -/
theorem enter_eq (stack : ScopeStack) (rooted : Bool) (name : String) :
    (if rooted then stack.enterRooted name else stack.enter name)
      = (PathFault.segments name).map fun parts =>
        stack.openBlock (parts.reverse ++ if rooted then [] else stack.view.segments) := by
  cases rooted with
  | true => simp [enterRooted]
  | false => simp [enter]

theorem exists_parts_of_enter {rooted : Bool}
    (h : (if rooted then stack.enterRooted name else stack.enter name)
      = .ok next) :
    ∃ parts, PathFault.segments name = .ok parts
      ∧ next = stack.openBlock (parts.reverse
        ++ if rooted then [] else stack.view.segments) := by
  rw [enter_eq] at h
  cases hparts : PathFault.segments name with
  | error =>
    rw [hparts] at h
    cases h
  | ok parts =>
    rw [hparts] at h
    cases h
    exact ⟨parts, rfl, rfl⟩

theorem Sound.enter (h : stack.Sound) {rooted : Bool}
    (hnext : (if rooted then stack.enterRooted name else stack.enter name)
      = .ok next) : next.Sound := by
  obtain ⟨_, hparts, rfl⟩ := exists_parts_of_enter hnext
  refine ⟨List.forall_mem_cons.2 ⟨fun segment hsegment => ?_, h.segments⟩, nofun⟩
  rcases List.mem_append.1 hsegment with hsegment | hsegment
  · exact (parts_of_segments hparts).2 segment (List.mem_reverse.1 hsegment)
  · cases rooted with
    | true => cases hsegment
    | false =>
      exact h.segments stack.view (.head _) segment hsegment

end ScopeStack

-- ==== calls

/-- A call of the scope stack. -/
inductive ScopeCall where
  | enter (rooted : Bool) (name : String)
  | leave
  | addImport (path : String)
  | addAlias (name target : String)
  | clear
  | snapshot (typePath : Option String)
deriving DecidableEq, Repr

inductive ScopeAnswer where
  | done
  | refused (fault : PathFault)
  /-- Whether a block was left. -/
  | left (open_ : Bool)
  | visible (scope : Scope)
deriving DecidableEq, Repr

/-- The answers to some calls, one after the other, and the state behind
them. -/
def ScopeCall.run {σ : Type} (call : σ → ScopeCall → ScopeAnswer × σ) (state : σ) :
    List ScopeCall → List ScopeAnswer × σ
  | [] => ([], state)
  | first :: rest =>
    let later := run call (call state first).2 rest
    ((call state first).1 :: later.1, later.2)

def ScopeStack.call (stack : ScopeStack) : ScopeCall → ScopeAnswer × ScopeStack
  | .enter rooted name =>
    match if rooted then stack.enterRooted name else stack.enter name with
    | .ok next => (.done, next)
    | .error fault => (.refused fault, stack)
  | .leave => (.left stack.leave?.isSome, stack.leave)
  | .addImport path => (.done, stack.addImport path)
  | .addAlias name target => (.done, stack.addAlias name target)
  | .clear => (.done, {})
  | .snapshot typePath =>
    (.visible (stack.snapshot typePath).1, (stack.snapshot typePath).2)

-- ==== blocks

/-- A block by itself. -/
structure ScopeBlock where
  /-- Its full path. -/
  path : String := ""
  /-- The imports it adds, the last one first. -/
  imports : List String := []
  /-- The aliases it adds, the last one first. -/
  aliases : List (String × String) := []

/-- The open blocks. -/
structure ScopeBlocks where
  inner : ScopeBlock := {}
  /-- The blocks around it, the file as a whole last. -/
  outer : List ScopeBlock := []

namespace ScopeBlocks

def all (blocks : ScopeBlocks) : List ScopeBlock := blocks.inner :: blocks.outer

def imports (blocks : ScopeBlocks) : List String := blocks.all.flatMap ScopeBlock.imports

def aliases (blocks : ScopeBlocks) : List (String × String) := blocks.all.flatMap ScopeBlock.aliases

/-- What is visible inside `typePath`. -/
def visible (blocks : ScopeBlocks) (typePath : Option String) : Scope :=
  ⟨blocks.inner.path, typePath, blocks.imports, blocks.aliases⟩

/-- An import that is not in view is added to the innermost block. -/
def addImport (blocks : ScopeBlocks) (path : String) : ScopeBlocks :=
  if path ∈ blocks.imports then blocks
  else
    let imports := path :: blocks.inner.imports
    { blocks with inner := { blocks.inner with imports } }

def call (blocks : ScopeBlocks) : ScopeCall → ScopeAnswer × ScopeBlocks
  | .enter rooted name =>
    match PathFault.segments name with
    | .ok _ =>
      let path := if rooted then name else Text.join blocks.inner.path name
      (.done, ⟨{ path }, blocks.all⟩)
    | .error fault => (.refused fault, blocks)
  | .leave =>
    match blocks.outer with
    | [] => (.left false, blocks)
    | inner :: outer => (.left true, ⟨inner, outer⟩)
  | .addImport path => (.done, blocks.addImport path)
  | .addAlias name target =>
    let aliases := (name, target) :: blocks.inner.aliases
    (.done, { blocks with inner := { blocks.inner with aliases } })
  | .clear => (.done, {})
  | .snapshot typePath => (.visible (blocks.visible typePath), blocks)

end ScopeBlocks

-- ==== agreement

/-- Whether each view is made of the path of its block and of what that
block and those around it add. -/
inductive InView : List ScopeView → List ScopeBlock → Prop where
  | nil : InView [] []
  | cons {view : ScopeView} {views : List ScopeView} {block : ScopeBlock} {outer : List ScopeBlock}
      (hpath : ".".intercalate view.segments.reverse = block.path)
      (himports : view.imports = (block :: outer).flatMap ScopeBlock.imports)
      (haliases : view.aliases = (block :: outer).flatMap ScopeBlock.aliases)
      (h : InView views outer) : InView (view :: views) (block :: outer)

namespace ScopeStack

variable {stack next : ScopeStack} {blocks : ScopeBlocks}

/-- Whether a stack is made of these blocks. -/
structure MadeOf (stack : ScopeStack) (blocks : ScopeBlocks) : Prop where
  inView : InView (stack.view :: stack.outer) blocks.all
  sound : stack.Sound

theorem madeOf_empty : MadeOf {} {} := ⟨.cons rfl rfl rfl .nil, sound_empty⟩

theorem MadeOf.visible (h : stack.MadeOf blocks) (typePath : Option String) :
    stack.visible typePath = blocks.visible typePath := by
  cases h.inView with
  | cons hpath himports haliases =>
    unfold ScopeStack.visible ScopeBlocks.visible path
    rw [hpath, himports, haliases]
    rfl

theorem MadeOf.depth (h : stack.MadeOf blocks) : stack.depth = blocks.outer.length := by
  have hlength : ∀ {views : List ScopeView} {outer : List ScopeBlock},
      InView views outer → views.length = outer.length := by
    intro views outer h
    induction h with
    | nil => rfl
    | cons _ _ _ _ ih => rw [List.length_cons, List.length_cons, ih]
  rw [stack.depth_eq]
  cases h.inView with
  | cons _ _ _ houter => exact hlength houter

/-- The path of a block that is entered. -/
theorem intercalate_enter (h : stack.Sound) (rooted : Bool) {name : String} {parts : List String}
    (hparts : PathFault.segments name = .ok parts) :
    ".".intercalate (parts.reverse
        ++ if rooted then [] else stack.view.segments).reverse
      = if rooted then name else Text.join stack.path name := by
  obtain ⟨rfl, -⟩ := parts_of_segments hparts
  have hname := Text.intercalate_dottedParts name
  cases rooted with
  | true => simp [hname]
  | false =>
    rw [← qualify_eq h, qualify]
    by_cases hempty : stack.view.segments = []
    · simp [hempty, hname]
    · have hsegments : stack.view.segments.reverse ≠ [] := by simpa
      simp [hempty, path, String.intercalate_append_of_ne_nil hsegments
        (Text.dottedParts_ne_nil name), hname]

theorem MadeOf.leave (h : stack.MadeOf blocks) :
    stack.leave?.isSome = !blocks.outer.isEmpty ∧ stack.leave.MadeOf (blocks.call .leave).2 := by
  obtain ⟨_, outer⟩ := blocks
  have hleave := h.sound.leave
  unfold ScopeStack.leave at hleave ⊢
  cases h.inView with
  | cons _ _ _ houter =>
    rcases stack.leave?_cases with ⟨hnil, hnone⟩ | ⟨_, hleft, hcons, -⟩
    · rw [hnil] at houter
      cases houter
      rw [hnone]
      exact ⟨rfl, h⟩
    · rw [hcons] at houter
      rw [hleft] at hleave ⊢
      cases outer with
      | nil => cases houter
      | cons => exact ⟨rfl, houter, hleave⟩

theorem MadeOf.addImport (h : stack.MadeOf blocks) (path : String) :
    (stack.addImport path).MadeOf (blocks.addImport path) := by
  refine ⟨?_, h.sound.addImport path⟩
  cases h.inView with
  | cons hpath himports haliases houter =>
    change stack.view.imports = blocks.imports at himports
    unfold ScopeStack.addImport ScopeBlocks.addImport
    rw [himports]
    by_cases hseen : path ∈ blocks.imports
    · rw [if_pos (List.contains_iff_mem.2 hseen), if_pos hseen]
      exact h.inView
    · rw [if_neg (mt List.contains_iff_mem.1 hseen), if_neg hseen]
      exact .cons hpath rfl haliases houter

/-- A call has the same answer from the stack and from its blocks, and the
stack goes on to be made of them. -/
theorem MadeOf.call (h : stack.MadeOf blocks) (call : ScopeCall) :
    (stack.call call).1 = (blocks.call call).1
      ∧ (stack.call call).2.MadeOf (blocks.call call).2 := by
  cases call with
  | enter rooted name =>
    unfold ScopeStack.call ScopeBlocks.call
    simp only [enter_eq]
    cases hparts : PathFault.segments name with
    | error => exact ⟨rfl, h⟩
    | ok =>
      have henter := enter_eq stack rooted name
      rw [hparts] at henter
      cases h.inView with
      | cons hpath himports haliases =>
        refine ⟨rfl, .cons ?_ himports haliases h.inView, h.sound.enter henter⟩
        rw [← hpath]
        exact intercalate_enter h.sound rooted hparts
  | leave =>
    obtain ⟨hsome, hleave⟩ := h.leave
    refine ⟨?_, hleave⟩
    show ScopeAnswer.left _ = _
    rw [hsome]
    unfold ScopeBlocks.call
    cases blocks.outer with
    | nil => rfl
    | cons => rfl
  | addImport path => exact ⟨rfl, h.addImport path⟩
  | addAlias name target =>
    cases h.inView with
    | cons hpath himports haliases houter =>
      refine ⟨rfl, .cons hpath himports ?_ houter, h.sound.addAlias ..⟩
      exact congrArg ((name, target) :: ·) haliases
  | clear => exact ⟨rfl, madeOf_empty⟩
  | snapshot typePath =>
    refine ⟨?_, ?_, h.sound.snapshot typePath⟩
    · show ScopeAnswer.visible _ = .visible _
      rw [snapshot_eq h.sound, h.visible]
    · unfold ScopeStack.call snapshot
      simp only
      split <;> exact h.inView

-- ==== matching calls

/-- A call that does not go out of a block leaves what is around it. -/
theorem suffix_call {views : List ScopeView} {call : ScopeCall} (h : views <:+ stack.outer)
    (hinside : views.length ≤ (stack.call call).2.depth) :
    views <:+ (stack.call call).2.outer := by
  rw [depth_eq] at hinside
  cases call with
  | enter rooted name =>
    unfold ScopeStack.call
    simp only
    split
    · rename_i next hnext
      obtain ⟨_, -, rfl⟩ := exists_parts_of_enter hnext
      exact h.trans (List.suffix_cons ..)
    · exact h
  | leave =>
    change _ ≤ stack.leave.outer.length at hinside
    show views <:+ stack.leave.outer
    unfold ScopeStack.leave at hinside ⊢
    rcases stack.leave?_cases with ⟨-, hnone⟩ | ⟨_, hleft, houter, -⟩
    · rw [hnone]
      exact h
    · -- if all views around were kept, leaving would go out of the block
      rw [hleft] at hinside ⊢
      rw [houter] at h
      rcases List.suffix_cons_iff.1 h with rfl | h
      · exact absurd hinside (Nat.not_succ_le_self _)
      · exact h
  | addImport path =>
    show views <:+ (stack.addImport path).outer
    unfold ScopeStack.addImport
    split <;> exact h
  | addAlias => exact h
  | clear =>
    rw [List.eq_nil_of_length_eq_zero (Nat.le_zero.1 hinside)]
    exact List.nil_suffix
  | snapshot typePath =>
    show views <:+ (stack.snapshot typePath).2.outer
    unfold ScopeStack.snapshot
    split <;> exact h

theorem suffix_run {views : List ScopeView} (calls : List ScopeCall) (h : views <:+ stack.outer)
    (hinside : ∀ count, views.length
      ≤ (ScopeCall.run call stack (calls.take count)).2.depth) :
    views <:+ (ScopeCall.run call stack calls).2.outer := by
  induction calls generalizing stack with
  | nil => exact h
  | cons first rest ih =>
    exact ih (suffix_call h (hinside 1)) fun count => hinside (count + 1)

/-- The call that leaves a block brings back what was in view before the
one that opened it. -/
theorem leave_of_matching {calls : List ScopeCall} {rooted : Bool}
    {name : String} (hinside : ∀ count, stack.depth
      < (ScopeCall.run call (stack.call (.enter rooted name)).2 (calls.take count)).2.depth)
    (hdepth : (ScopeCall.run call (stack.call (.enter rooted name)).2
      calls).2.depth = stack.depth + 1) :
    (ScopeCall.run call (stack.call (.enter rooted name)).2 calls).2.leave.view
        = stack.view
      ∧ (ScopeCall.run call (stack.call (.enter rooted name)).2
        calls).2.leave.outer = stack.outer := by
  have hlength : (stack.view :: stack.outer).length = stack.depth + 1 := by
    rw [List.length_cons, stack.depth_eq]
  have hentered : stack.view :: stack.outer <:+ (stack.call (.enter rooted name)).2.outer := by
    have hopen := hinside 0
    unfold ScopeStack.call at hopen ⊢
    simp only at hopen ⊢
    split at hopen
    · rename_i next hnext
      obtain ⟨_, -, rfl⟩ := exists_parts_of_enter hnext
      exact List.suffix_rfl
    · exact absurd hopen (Nat.lt_irrefl _)
  have hsuffix := suffix_run calls hentered fun count =>
    hlength ▸ hinside count
  generalize (ScopeCall.run call (stack.call (.enter rooted name)).2
    calls).2 = last at hdepth hsuffix ⊢
  rw [← hlength, last.depth_eq] at hdepth
  -- as deep as right after the block was entered: nothing else is around
  have hsame := hsuffix.eq_of_length hdepth.symm
  unfold ScopeStack.leave
  rcases last.leave?_cases with ⟨hnil, -⟩ | ⟨_, hleft, houter, -⟩
  · rw [hnil] at hsame
    cases hsame
  · rw [hleft]
    rw [houter, List.cons.injEq] at hsame
    exact ⟨hsame.1.symm, hsame.2.symm⟩

theorem MadeOf.run (h : stack.MadeOf blocks) (calls : List ScopeCall) :
    (ScopeCall.run ScopeStack.call stack calls).1
        = (ScopeCall.run ScopeBlocks.call blocks calls).1
      ∧ (ScopeCall.run ScopeStack.call stack calls).2.MadeOf
        (ScopeCall.run ScopeBlocks.call blocks calls).2 := by
  induction calls generalizing stack blocks with
  | nil => exact ⟨rfl, h⟩
  | cons first rest ih =>
    obtain ⟨hanswer, hnext⟩ := h.call first
    obtain ⟨hanswers, hlast⟩ := ih hnext
    refine ⟨?_, hlast⟩
    show _ :: _ = _ :: _
    rw [hanswer, hanswers]

end ScopeStack

end StackAsm
