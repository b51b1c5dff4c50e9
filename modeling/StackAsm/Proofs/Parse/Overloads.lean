/-
When two forms of a mnemonic accept the same arguments. An instruction
takes the first form that accepts, and if a later one accepts as well a
warning says so. Forms that are written with a literal in a position where
the others have a name cannot meet in that way (`Form.apart`). In the
standard instruction set all forms of a mnemonic that take as many
arguments are apart, so no choice there is ambiguous
(`unambiguous_standard`).
-/
import StackAsm.Machine.Standard
import StackAsm.Proofs.Parse.Arguments

namespace StackAsm

-- ==== positions

namespace ArgumentKind

/-- Whether the position may take a literal. -/
def takesLiteral : ArgumentKind → Bool
  | .constant | .typeOrNull | .argument | .localVariable | .localStore
  | .functionId | .format => true
  | _ => false

/-- Whether the position may take a name. -/
def takesName : ArgumentKind → Bool
  | .constant | .functionId | .format => false
  | _ => true

/-- Whether the position may take an argument that is written so. -/
def mayTake (kind : ArgumentKind) : ArgumentToken → Bool
  | .literal _ => kind.takesLiteral
  | .name _ _ => kind.takesName

/-- Whether no argument fits positions of both kinds. -/
def apart (kind other : ArgumentKind) : Bool :=
  !(kind.takesLiteral && other.takesLiteral) && !(kind.takesName && other.takesName)

theorem not_mayTake_both {kind other : ArgumentKind}
    (h : kind.apart other = true) {token : ArgumentToken}
    (hkind : kind.mayTake token = true) : other.mayTake token = false := by
  unfold apart at h
  cases token with
  | literal =>
    have hliteral : kind.takesLiteral = true := hkind
    rw [hliteral] at h
    simp only [Bool.true_and, Bool.and_eq_true, Bool.not_eq_true'] at h
    exact h.1
  | name =>
    have hname : kind.takesName = true := hkind
    rw [hname] at h
    simp only [Bool.true_and, Bool.and_eq_true, Bool.not_eq_true'] at h
    exact h.2

end ArgumentKind

namespace ArgumentContext

variable {ctx : ArgumentContext} {kind : ArgumentKind} {arg : Argument}
  {operand : Operand} {implicit implicit' : List String}

/-- What is read at a position is written as the position has it. -/
theorem mayTake_of_read (h : (ctx.read kind arg).run implicit = .ok operand implicit') :
    kind.mayTake arg.token = true := by
  obtain ⟨token, _⟩ := arg
  cases token with
  | literal value =>
    cases kind with
    | register | numericRegister | indexRegister | flag | label => cases h
    | field | method => cases h
    | type | primitiveType =>
      cases value with
      | null => cases h
      | _ => cases h
    | _ => rfl
  | name =>
    cases kind with
    | constant | functionId | format => cases h
    | _ => rfl

end ArgumentContext

-- ==== forms

namespace Form

variable {ctx : ArgumentContext} {args : List Argument}

/-- Whether a form accepts the arguments. -/
def Accepts (form : Form) (ctx : ArgumentContext) (args : List Argument) :
    Prop := ∃ operands implicit, (form.read ctx args).run [] = .ok operands implicit

/-- Whether in some position no argument fits both forms. -/
def apart (form other : Form) : Bool :=
  (form.args.zip other.args).any fun kinds => kinds.1.apart kinds.2

/-- Arguments that are read by both kinds in every position. -/
theorem Reads.apart_eq_false {kinds others : List ArgumentKind} {operands operands' : List Operand}
    {before after before' after' : List String} (h : Reads ctx kinds args before operands after)
    (hothers : Reads ctx others args before' operands' after') :
    ((kinds.zip others).any fun both => both.1.apart both.2) = false := by
  induction h generalizing others operands' before' with
  | nil => rfl
  | cons hread _ ih =>
    cases hothers with
    | cons hother hrest =>
      rw [List.zip_cons_cons, List.any_cons, ih hrest, Bool.or_false]
      refine Bool.eq_false_iff.2 fun hapart => ?_
      have hfits := ArgumentContext.mayTake_of_read hother
      rw [ArgumentKind.not_mayTake_both hapart (ArgumentContext.mayTake_of_read hread)] at hfits
      cases hfits

theorem not_accepts_of_apart {form other : Form}
    (h : form.apart other = true) (hform : form.Accepts ctx args) :
    ¬ other.Accepts ctx args := by
  obtain ⟨_, _, hread⟩ := hform
  rintro ⟨_, _, hother⟩
  have hmeet := (reads_of_read hread).apart_eq_false (reads_of_read hother)
  rw [apart, hmeet] at h
  cases h

end Form

-- ==== choices

namespace Choice

variable {ctx : ArgumentContext} {args : List Argument} {choice : Choice}

/-- One step: nothing else accepts if what was chosen before and the form
do not both accept. -/
theorem also_attempt {form : Form} (halso : choice.also = [])
    (hform : choice.chosen.isSome = true → ¬ form.Accepts ctx args) :
    (choice.attempt ctx args form).also = [] := by
  unfold attempt
  split
  · exact halso
  · rename_i operands implicit accepted hread hchosen
    exact absurd ⟨operands, implicit, hread⟩ (hform (by rw [hchosen]; rfl))
  · exact halso
  · exact halso

theorem accepts_of_attempt {form : Form} (h : (choice.attempt ctx args form).chosen.isSome = true) :
    choice.chosen.isSome = true ∨ form.Accepts ctx args := by
  unfold attempt at h
  split at h
  · rename_i operands implicit hread _
    exact .inr ⟨operands, implicit, hread⟩
  · exact .inl h
  · exact .inl h
  · exact .inl h

/-- All steps: if no two forms accept the arguments, nothing else
accepts. -/
theorem also_foldl {forms : List Form} (hforms : forms.Pairwise fun form other =>
      form.Accepts ctx args → ¬ other.Accepts ctx args)
    (halso : choice.also = []) (hchosen : choice.chosen.isSome = true →
      ∀ form ∈ forms, ¬ form.Accepts ctx args) :
    (forms.foldl (attempt ctx args) choice).also = [] := by
  induction forms generalizing choice with
  | nil => exact halso
  | cons form rest ih =>
    rw [List.pairwise_cons] at hforms
    refine ih hforms.2 ?_ fun hsome other hother => ?_
    · exact also_attempt halso fun hsome => hchosen hsome form (.head _)
    · rcases accepts_of_attempt hsome with hbefore | haccepts
      · exact hchosen hbefore other (.tail _ hother)
      · exact hforms.1 other hother haccepts

end Choice

namespace InstructionSet

/-- Whether no arguments are accepted by two forms of a mnemonic. -/
def Unambiguous (set : InstructionSet) : Prop :=
  ∀ ctx mnemonic args, (Choice.ofForms ctx args (set.candidates mnemonic args.length)).also = []

/-- Whether forms of one mnemonic with as many arguments are apart. -/
def Apart (set : InstructionSet) : Prop := set.forms.Pairwise fun form other =>
    form.mnemonic = other.mnemonic → form.arity = other.arity → form.apart other = true

theorem unambiguous_of_apart {set : InstructionSet} (h : set.Apart) : set.Unambiguous := by
  intro ctx mnemonic args
  refine Choice.also_foldl ?_ rfl nofun
  have hcandidates : (set.candidates mnemonic args.length).Pairwise
      fun form other => form.mnemonic = other.mnemonic →
        form.arity = other.arity → form.apart other = true := (h.filter _).filter _
  have hsame : ∀ form ∈ set.candidates mnemonic args.length,
      form.mnemonic = mnemonic ∧ form.arity = args.length := by
    intro form hform
    obtain ⟨hoverload, harity⟩ := List.mem_filter.1 hform
    exact ⟨eq_of_beq (List.mem_filter.1 hoverload).2, eq_of_beq harity⟩
  refine hcandidates.imp_of_mem fun {form other} hform hother hapart => ?_
  obtain ⟨hmnemonic, harity⟩ := hsame form hform
  obtain ⟨hmnemonic', harity'⟩ := hsame other hother
  exact Form.not_accepts_of_apart (hapart (hmnemonic.trans hmnemonic'.symm)
    (harity.trans harity'.symm))

set_option maxRecDepth 4000 in
theorem apart_standard : Apart .standard := by
  unfold Apart
  decide +kernel

/-- No instruction of the standard set is ambiguous. -/
theorem unambiguous_standard : Unambiguous .standard := unambiguous_of_apart apart_standard

end InstructionSet

end StackAsm
