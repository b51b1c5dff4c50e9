/-
Arguments that are read. A position reads its argument as an operand of
the kind it takes, so what an instruction is read as suits its form
(`Form.Takes`), and the writer finds no fault with it. On the way a label
is looked up in the table of the method, a variable is meant by its number
or by its name (`Argument.Means`), and a local that is declared gets a
name that no other local has (`ArgumentContext.New`), also where the
instruction is refused in the end.
-/
import StackAsm.Parse.Instruction
import StackAsm.Proofs.Container.Code

namespace StackAsm

-- ==== forms

namespace Form

variable {operands : List Operand} {form : Form}

/-- A form takes the same operands with other targets. -/
theorem Takes.of_unaimed {operands' : List Operand}
    (h : form.Takes operands) (hsame : operands'.map Operand.unaimed
      = operands.map Operand.unaimed) : form.Takes operands' := by
  rw [← takes_unaimed, hsame, takes_unaimed]
  exact h

/-- A form takes the same operands with other references. -/
theorem Takes.mapReference (h : form.Takes operands) (f : Reference → Reference) :
    form.Takes (operands.map (Operand.mapReference f)) := by
  have haccepts : ∀ (kind : ArgumentKind) (operand : Operand),
      kind.accepts (operand.mapReference f) = kind.accepts operand := by
    intro kind operand
    cases operand <;> cases kind <;> rfl
  simp only [Takes, List.forall₂_map_right_iff, haccepts]
  exact h

end Form

-- ==== variables

/-- Which variables a position takes, if any. -/
def ArgumentKind.varKind? : ArgumentKind → Option VariableKind
  | .argument => some .argument
  | .localVariable | .localStore => some .locals
  | _ => none

namespace Argument

variable {arg : Argument} {vars more : List Variable} {place other : Nat}

/-- Whether an argument means the variable at a place: it is the number of
the place or the name of the variable. -/
def Means (arg : Argument) (vars : List Variable) (place : Nat) : Prop :=
  place < vars.length ∧ match arg.token with
    | .literal (.int value) => value.toInt = place
    | .literal _ => False
    | .name text dims =>
      dims = 0 ∧ vars[place]?.map (·.name) = some text

theorem means_of_int {value : Int64} (htoken : arg.token = .literal (.int value))
    (hlt : place < vars.length) (hplace : value.toInt = place) :
    arg.Means vars place := by
  unfold Means
  rw [htoken]
  exact ⟨hlt, hplace⟩

theorem means_of_name {name : String} (hname : arg.plainName? = some name)
    (hvar : vars[place]?.map (·.name) = some name) :
    arg.Means vars place := by
  obtain ⟨_, hplace, -⟩ := Option.map_eq_some_iff.1 hvar
  have hlt := (List.getElem?_eq_some_iff.1 hplace).1
  unfold plainName? at hname
  split at hname
  · rename_i text dims htoken
    split at hname
    · rename_i hdims
      cases hname
      unfold Means
      rw [htoken]
      exact ⟨hlt, hdims, hvar⟩
    · cases hname
  · cases hname

/-- Only names count, and more of them behind those there are change
nothing. -/
theorem Means.mono (h : arg.Means vars place) (hmore : vars.map (·.name) <+: more.map (·.name)) :
    arg.Means more place := by
  unfold Means at h ⊢
  rw [← List.getElem?_map, ← List.length_map (·.name)] at h ⊢
  obtain ⟨_, hrest⟩ := hmore
  rw [← hrest, List.getElem?_append_left h.1, List.length_append]
  exact ⟨Nat.lt_add_right _ h.1, h.2⟩

/-- If no two variables have one name, an argument means one at most. -/
theorem Means.unique (hnodup : (vars.map (·.name)).Nodup)
    (hplace : arg.Means vars place) (hother : arg.Means vars other) :
    other = place := by
  unfold Means at hplace hother
  cases htoken : arg.token with
  | literal value =>
    rw [htoken] at hplace hother
    cases value with
    | int =>
      omega
    | _ => exact hplace.2.elim
  | name =>
    rw [htoken] at hplace hother
    obtain ⟨hlt, -, hplace⟩ := hplace
    obtain ⟨-, -, hother⟩ := hother
    rw [← List.getElem?_map] at hplace hother
    rw [← List.length_map (·.name)] at hlt
    exact ((List.getElem?_inj hlt hnodup).1 (hplace.trans hother.symm)).symm

/-- A slot is the place of the variable that is meant. -/
theorem means_of_slot? {slot : UInt16} (h : arg.slot? vars = some slot) :
    ∃ place, slot = UInt16.ofNat place ∧ arg.Means vars place := by
  unfold slot? at h
  split at h
  · rename_i value htoken
    split at h
    · rename_i hbounds
      cases h
      have hplace : value.toInt = value.toInt.toNat := by omega
      exact ⟨_, rfl, means_of_int htoken (by omega) hplace⟩
    · cases h
  · cases h
  · obtain ⟨_, hname, h⟩ := Option.bind_eq_some_iff.1 h
    obtain ⟨place, hfound, rfl⟩ := Option.map_eq_some_iff.1 h
    obtain ⟨hlt, hsame, -⟩ := List.findIdx?_eq_some_iff_getElem.1 hfound
    refine ⟨place, rfl, means_of_name hname ?_⟩
    rw [List.getElem?_eq_getElem hlt]
    exact congrArg some (eq_of_beq hsame)

end Argument

-- ==== operands

namespace Operand

variable {vars more : VariableKind → List Variable} {kind : ArgumentKind}
  {arg : Argument} {operand : Operand}

/-- Whether an operand has the place of the variable that an argument
means, if the position takes a variable. -/
def Names (vars : VariableKind → List Variable) (kind : ArgumentKind)
    (arg : Argument) (operand : Operand) : Prop :=
  ∀ which ∈ kind.varKind?, ∃ place,
    operand = .var which (UInt16.ofNat place) ∧ arg.Means (vars which) place

theorem Names.mono (h : operand.Names vars kind arg)
    (hmore : ∀ which, (vars which).map (·.name) <+: (more which).map (·.name)) :
    operand.Names more kind arg := by
  intro which hwhich
  obtain ⟨place, hop, hmeans⟩ := h which hwhich
  exact ⟨place, hop, hmeans.mono (hmore which)⟩

theorem names_unaimed : operand.unaimed.Names vars kind arg ↔ operand.Names vars kind arg := by
  cases operand with
  | label => simp [Names, unaimed]
  | _ => exact Iff.rfl

theorem names_mapReference (f : Reference → Reference) :
    (operand.mapReference f).Names vars kind arg ↔ operand.Names vars kind arg := by
  cases operand with
  | var => exact Iff.rfl
  | _ => simp [Names, mapReference]

end Operand

-- ==== arguments

namespace ArgumentContext

variable {ctx : ArgumentContext} {kind : ArgumentKind} {arg : Argument}
  {operand : Operand} {implicit implicit' : List String}

/-- The variables there are when those implicit locals are declared. -/
def vars (ctx : ArgumentContext) (implicit : List String) : VariableKind → List Variable
  | .argument => ctx.params
  | .locals => ctx.locals ++ implicit.map fun name => ⟨name, .object⟩

theorem prefix_vars (h : implicit <+: implicit') (which : VariableKind) :
    (ctx.vars implicit which).map (·.name) <+: (ctx.vars implicit' which).map (·.name) := by
  cases which with
  | argument => exact List.prefix_rfl
  | locals => exact ((List.prefix_append_right_inj _).2 (h.map _)).map _

/-- The implicit local at a place. -/
theorem means_implicit {name : String} {place : Nat} (hname : arg.plainName? = some name)
    (hplace : implicit[place]? = some name) :
    arg.Means (ctx.vars implicit .locals) (ctx.locals.length + place) := by
  apply Argument.means_of_name hname
  show (ctx.locals ++ _)[_]?.map _ = _
  rw [List.getElem?_append_right (Nat.le_add_right ..),
    Nat.add_sub_cancel_left, List.getElem?_map, hplace]
  rfl

/-- Whether names can be declared behind those: no local has them, none
comes twice, and the method has not declared its locals. -/
structure New (ctx : ArgumentContext) (implicit new : List String) : Prop where
  nodup : new.Nodup
  others : ∀ name ∈ new, name ∉ implicit
  locals : ∀ name ∈ new, name ∉ ctx.locals.map (·.name)
  undeclared : new ≠ [] → ctx.localsDeclared = false

/-- Whether all that happens to the implicit locals is that new ones are
declared. -/
def Declares (ctx : ArgumentContext) (implicit implicit' : List String) :
    Prop := ∃ new, implicit' = implicit ++ new ∧ ctx.New implicit new

theorem Declares.refl (implicit : List String) :
    ctx.Declares implicit implicit :=
  ⟨[], (List.append_nil _).symm, List.nodup_nil, nofun, nofun, fun hne => absurd rfl hne⟩

theorem Declares.trans {middle : List String} (h : ctx.Declares implicit middle)
    (h' : ctx.Declares middle implicit') :
    ctx.Declares implicit implicit' := by
  obtain ⟨new, rfl, hnew⟩ := h
  obtain ⟨more, rfl, hmore⟩ := h'
  refine ⟨new ++ more, List.append_assoc .., ?_, ?_, ?_, ?_⟩
  · rw [List.nodup_append]
    refine ⟨hnew.nodup, hmore.nodup, ?_⟩
    rintro name hname _ hother rfl
    exact hmore.others name hother (List.mem_append_right _ hname)
  · rw [List.forall_mem_append]
    exact ⟨hnew.others, fun name hname hold =>
      hmore.others name hname (List.mem_append_left _ hold)⟩
  · rw [List.forall_mem_append]
    exact ⟨hnew.locals, hmore.locals⟩
  · intro hne
    by_cases hnil : new = []
    · exact hmore.undeclared fun hmore => hne (by rw [hnil, hmore]; rfl)
    · exact hnew.undeclared hnil

/-- What a position of that kind can give. -/
structure Gives (ctx : ArgumentContext) (kind : ArgumentKind)
    (arg : Argument) (implicit : List String) (operand : Operand)
    (implicit' : List String) : Prop where
  accepts : kind.accepts operand = true
  label : ∀ index target, operand = .label index target → index ∈ ctx.labels.map (·.index)
  names : operand.Names (ctx.vars implicit') kind arg
  declares : ctx.Declares implicit implicit'

/-- What comes of reading at a position, also where it fails. -/
def Ends (ctx : ArgumentContext) (kind : ArgumentKind) (arg : Argument) (implicit : List String) :
    EStateM.Result Refusal (List String) Operand → Prop
  | .ok operand implicit' => ctx.Gives kind arg implicit operand implicit'
  | .error _ implicit' => ctx.Declares implicit implicit'

/-- An operand that is neither a label nor a variable. -/
theorem gives_plain (haccepts : kind.accepts operand = true)
    (hkind : kind.varKind? = none) (hlabel : operand.tag ≠ 8) :
    ctx.Gives kind arg implicit operand implicit := by
  refine ⟨haccepts, ?_, ?_, .refl implicit⟩
  · rintro _ _ rfl
    exact absurd rfl hlabel
  · intro which hwhich
    rw [hkind] at hwhich
    cases hwhich

/-- A variable, with the one that is meant at its place. -/
theorem gives_variable {which : VariableKind} {place : Nat}
    (haccepts : ∀ slot, kind.accepts (.var which slot) = true) (hkind : kind.varKind? = some which)
    (hmeans : arg.Means (ctx.vars implicit' which) place)
    (hdeclares : ctx.Declares implicit implicit') :
    ctx.Gives kind arg implicit (.var which (.ofNat place)) implicit' := by
  refine ⟨haccepts _, nofun, fun _ hother => ?_, hdeclares⟩
  rw [hkind] at hother
  cases hother
  exact ⟨place, rfl, hmeans⟩

theorem ends_readRegister (hkind : kind.varKind? = none) :
    ctx.Ends kind arg implicit ((readRegister kind arg).run implicit) := by
  unfold readRegister
  split
  · split
    · rename_i htakes
      exact gives_plain htakes hkind (by simp [Operand.tag])
    · exact Declares.refl implicit
  · exact Declares.refl implicit

theorem ends_readType (haccepts : ∀ spec, kind.accepts (.type spec) = true)
    (hkind : kind.varKind? = none) :
    ctx.Ends kind arg implicit ((ctx.readType kind arg).run implicit) := by
  unfold readType
  split
  · split
    · rename_i hnull
      subst hnull
      exact gives_plain rfl rfl (by simp [Operand.tag])
    · exact Declares.refl implicit
  · exact Declares.refl implicit
  · split
    · exact Declares.refl implicit
    · split
      · exact Declares.refl implicit
      · exact gives_plain (haccepts _) hkind (by simp [Operand.tag])

theorem ends_readMember {operand : String → Operand}
    (haccepts : ∀ name, kind.accepts (operand name) = true)
    (hkind : kind.varKind? = none) (htag : ∀ name, (operand name).tag ≠ 8) :
    ctx.Ends kind arg implicit ((readMember kind arg >>= fun name =>
      pure (operand name)).run implicit) := by
  unfold readMember
  split
  · split
    · exact Declares.refl implicit
    · exact gives_plain (haccepts _) hkind (htag _)
  · exact Declares.refl implicit

theorem ends_readLabel : ctx.Ends .label arg implicit ((ctx.readLabel arg).run implicit) := by
  unfold readLabel
  split
  · exact Declares.refl implicit
  · split
    · rename_i label hlabel
      refine ⟨rfl, ?_, nofun, .refl implicit⟩
      rintro _ _ ⟨⟩
      exact List.mem_map.2 ⟨label, List.mem_of_find?_eq_some hlabel, rfl⟩
    · exact Declares.refl implicit

/-- A name that gives no slot is no local's. -/
theorem not_mem_of_slot? {vars : List Variable} {name : String}
    (hslot : arg.slot? vars = none) (hname : arg.plainName? = some name) :
    name ∉ vars.map (·.name) := by
  intro hmem
  obtain ⟨var, hvar, heq⟩ := List.mem_map.1 hmem
  unfold Argument.slot? at hslot
  split at hslot
  · rename_i htoken
    simp [Argument.plainName?, htoken] at hname
  · rename_i htoken
    simp [Argument.plainName?, htoken] at hname
  · rw [hname, Option.bind_some, Option.map_eq_none_iff, List.findIdx?_eq_none_iff] at hslot
    have hother := hslot var hvar
    rw [heq, beq_self_eq_true] at hother
    cases hother

/-- What is read as a local is the local that is meant, which may be
declared here. -/
theorem ends_readLocal (haccepts : ∀ slot, kind.accepts (.var .locals slot) = true)
    (hkind : kind.varKind? = some .locals) :
    ctx.Ends kind arg implicit ((ctx.readLocal kind arg).run implicit) := by
  unfold readLocal
  split
  · rename_i slot name hslot
    obtain ⟨place, rfl, hmeans⟩ := Argument.means_of_slot? hslot
    exact gives_variable haccepts hkind
      (hmeans.mono ((List.prefix_append ..).map _)) (.refl implicit)
  · exact Declares.refl implicit
  · rename_i name hslot hname
    rw [run_get_bind]
    split
    · rename_i place hfound
      obtain ⟨hlt, hsame, -⟩ := List.findIdx?_eq_some_iff_getElem.1 hfound
      refine gives_variable haccepts hkind (means_implicit hname ?_) (.refl implicit)
      rw [List.getElem?_eq_getElem hlt, eq_of_beq hsame]
    · rename_i hnew
      rw [List.idxOf?_eq_none_iff] at hnew
      split
      · rename_i hstore
        split
        · exact Declares.refl implicit
        · -- the name is declared here
          refine gives_variable haccepts hkind (means_implicit hname List.getElem?_concat_length)
            ⟨[name], rfl, List.nodup_singleton name, ?_, ?_, fun _ => ?_⟩
          · exact List.forall_mem_singleton.2 hnew
          · exact List.forall_mem_singleton.2 (not_mem_of_slot? hslot hname)
          · exact eq_false_of_ne_true hstore.2
      · exact Declares.refl implicit

/-- What comes of reading at a position. -/
theorem ends_read : ctx.Ends kind arg implicit ((ctx.read kind arg).run implicit) := by
  unfold read
  split
  · -- constant
    split
    · exact gives_plain rfl rfl (by simp [Operand.tag])
    · exact Declares.refl implicit
  · exact ends_readRegister rfl
  · exact ends_readRegister rfl
  · exact ends_readRegister rfl
  · -- flag
    split
    · exact gives_plain rfl rfl (by simp [Operand.tag])
    · exact Declares.refl implicit
  · exact ends_readType (fun _ => rfl) rfl
  · exact ends_readType (fun _ => rfl) rfl
  · exact ends_readType (fun _ => rfl) rfl
  · exact ends_readMember (fun _ => rfl) rfl (by simp [Operand.tag])
  · exact ends_readMember (fun _ => rfl) rfl (by simp [Operand.tag])
  · exact ends_readLabel
  · -- argument
    split
    · rename_i slot hslot
      obtain ⟨_, rfl, hmeans⟩ := Argument.means_of_slot? hslot
      exact gives_variable (fun _ => rfl) rfl hmeans (.refl implicit)
    · exact Declares.refl implicit
  · exact ends_readLocal (fun _ => rfl) rfl
  · exact ends_readLocal (fun _ => rfl) rfl
  · -- host function
    split
    · split
      · exact Declares.refl implicit
      · exact gives_plain rfl rfl (by simp [Operand.tag])
    · exact Declares.refl implicit
  · -- format
    split
    · exact gives_plain rfl rfl (by simp [Operand.tag])
    · exact Declares.refl implicit

/-- What is read at a position. -/
theorem gives_of_read (h : (ctx.read kind arg).run implicit = .ok operand implicit') :
    ctx.Gives kind arg implicit operand implicit' := by
  have hends := @ends_read ctx kind arg implicit
  rw [h] at hends
  exact hends

end ArgumentContext

-- ==== instructions

namespace Form

variable {ctx : ArgumentContext} {operands : List Operand}
  {implicit implicit' : List String} {args : List Argument}

theorem run_readAt (position : Nat) (kind : ArgumentKind) (arg : Argument) :
    (readAt ctx position kind arg).run implicit = match (ctx.read kind arg).run implicit with
        | .ok operand implicit => .ok operand implicit
        | .error refusal implicit =>
          .error (.argument position refusal) implicit :=
  rfl

/-- How arguments of those kinds are read, one behind the other. -/
inductive Reads (ctx : ArgumentContext) : List ArgumentKind →
    List Argument → List String → List Operand → List String → Prop where
  | nil (implicit : List String) : Reads ctx [] [] implicit [] implicit
  | cons {kind : ArgumentKind} {arg : Argument} {operand : Operand}
      {before middle after : List String} {kinds : List ArgumentKind}
      {args : List Argument} {operands : List Operand}
      (hfirst : (ctx.read kind arg).run before = .ok operand middle)
      (hrest : Reads ctx kinds args middle operands after) :
      Reads ctx (kind :: kinds) (arg :: args) before (operand :: operands) after

theorem reads_of_readFrom {position : Nat} {kinds : List ArgumentKind}
    (hlength : args.length = kinds.length)
    (h : (readFrom ctx position kinds args).run implicit
      = .ok operands implicit') :
    Reads ctx kinds args implicit operands implicit' := by
  induction kinds generalizing position args operands implicit with
  | nil =>
    cases args with
    | nil =>
      cases h
      exact .nil _
    | cons => cases hlength
  | cons kind kinds ih =>
    cases args with
    | nil => cases hlength
    | cons arg args =>
      obtain ⟨_, _, hfirst, h⟩ := run_bind_ok_iff.1 h
      obtain ⟨_, _, hrest, h⟩ := run_bind_ok_iff.1 h
      cases h
      rw [run_readAt] at hfirst
      split at hfirst
      · rename_i hread
        cases hfirst
        exact .cons hread (ih (Nat.succ.inj hlength) hrest)
      · cases hfirst

/-- A form reads as many arguments as it takes, each by its kind. -/
theorem reads_of_read {form : Form}
    (h : (form.read ctx args).run implicit = .ok operands implicit') :
    Reads ctx form.args args implicit operands implicit' := by
  obtain ⟨found, middle, hfound, h⟩ := run_bind_ok_iff.1 h
  have hsame : found = operands ∧ middle = implicit' := by
    split at h
    · exact run_pure_ok_iff.1 h
    · split at h
      · exact run_pure_ok_iff.1 h
      · cases h
  obtain ⟨rfl, rfl⟩ := hsame
  unfold readByKind at hfound
  split at hfound
  · rename_i hlength
    exact reads_of_readFrom hlength hfound
  · cases hfound

/-- What the arguments of an instruction are read as. -/
structure Read (ctx : ArgumentContext) (kinds : List ArgumentKind)
    (implicit : List String) (operands : List Operand)
    (implicit' : List String) : Prop where
  takes : List.Forall₂ (fun kind operand => ArgumentKind.accepts kind operand = true) kinds operands
  labels : ∀ index target, .label index target ∈ operands → index ∈ ctx.labels.map (·.index)
  declares : ctx.Declares implicit implicit'

theorem Reads.read {kinds : List ArgumentKind}
    (h : Reads ctx kinds args implicit operands implicit') :
    Read ctx kinds implicit operands implicit' := by
  induction h with
  | nil implicit => exact ⟨.nil, nofun, .refl implicit⟩
  | cons hfirst _ ih =>
    have hgives := ArgumentContext.gives_of_read hfirst
    refine ⟨.cons hgives.accepts ih.takes, ?_, hgives.declares.trans ih.declares⟩
    intro index target hmem
    rcases List.mem_cons.1 hmem with hhead | htail
    · exact hgives.label index target hhead.symm
    · exact ih.labels index target htail

theorem declares_readFrom (position : Nat) (kinds : List ArgumentKind)
    (args : List Argument) (implicit : List String) :
    ctx.Declares implicit (endState ((readFrom ctx position kinds args).run implicit)) := by
  induction kinds generalizing position args implicit with
  | nil => exact .refl implicit
  | cons kind kinds ih =>
    cases args with
    | nil => exact .refl implicit
    | cons arg args =>
      have hends := @ArgumentContext.ends_read ctx kind arg implicit
      rw [readFrom, EStateM.run_bind, run_readAt]
      cases hread : (ctx.read kind arg).run implicit with
      | error =>
        rw [hread] at hends
        exact hends
      | ok operand middle =>
        rw [hread] at hends
        rw [endState_bind fun _ _ => rfl]
        exact hends.declares.trans (ih (position + 1) args middle)

/-- Operands that were read suit their form. Whether or not reading them
succeeds, all that happens on the way is that locals are declared, with
names that are new, in a method that has not declared its locals. -/
theorem read_suits (form : Form) (ctx : ArgumentContext)
    (args : List Argument) (implicit : List String) :
    (∀ operands implicit', (form.read ctx args).run implicit = .ok operands implicit' →
          form.operandFault? operands = none)
      ∧ ∃ new, endState ((form.read ctx args).run implicit) = implicit ++ new
          ∧ ctx.New implicit new := by
  refine ⟨fun operands implicit' hread => ?_, ?_⟩
  · exact operandFault?_eq_none.2 (reads_of_read hread).read.takes
  · show ctx.Declares implicit _
    unfold read
    rw [endState_bind ?_, readByKind]
    · split
      · exact declares_readFrom ..
      · exact .refl implicit
    · intro operands last
      split
      · rfl
      · split <;> rfl

end Form

end StackAsm
