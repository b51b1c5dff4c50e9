/-
The tables of a module are closed. Fields, methods, texts and functions
of the host are named by their places in two tables, which are filled
while the methods are lowered one after the other, and places go into the
code long before the tables are complete. In the end no entry is there
twice, every place in the code is a place in a table, and what stands
there is what the instruction named (`Program.names_of_lower`).

# Shape of the argument

- A block has its places right in any tables that its own grow to
  (`BlockShape`). So all blocks of a program have them right in the tables
  that it ends with (`within_method`).
- What is put in the place of a deferred compare names nothing
  (`Filled.mem_or_isNamedBy`).
- A place is thirty-two bits wide. In a table with more entries than that
  it is a place still, but perhaps of something else (`Selects`).
-/
import StackAsm.Proofs.StackCode.ControlFlow
import StackAsm.StackCode.Text

namespace StackAsm

open Lower

-- ==== places in tables

/-- The index is a place in the table and, unless there are more entries
than indices, that of the item. -/
def Selects {α : Type} (table : Array α) (index : UInt32) (item : α) :
    Prop := index.toNat < table.size ∧ (table.size ≤ UInt32.size → table[index.toNat]? = some item)

theorem selects_of_getElem? {α : Type} {table : Array α} {place : Nat}
    {item : α} (h : table[place]? = some item) :
    Selects table (UInt32.ofNat place) item := by
  have hinside : place < table.size := (Array.getElem?_eq_some_iff.1 h).1
  constructor
  · exact Nat.lt_of_le_of_lt (Nat.mod_le _ _) hinside
  · intro hsize
    rw [UInt32.toNat_ofNat_of_lt' (Nat.lt_of_lt_of_le hinside hsize)]
    exact h

/-- An operation has the name of a symbol or text for an operand of that
instruction, if it has one at all. -/
def StackOp.IsNamedBy (module : StackModule) (operands : List Operand) : StackOp → Prop
  | .loadField _ _ id _ | .storeField _ id =>
    ∃ symbol, .field (.resolved symbol) ∈ operands ∧ Selects module.symbols id symbol
  | .call id _ _ _ =>
    ∃ symbol, .method (.resolved symbol) ∈ operands ∧ Selects module.symbols id symbol
  | .const (.str index) =>
    ∃ text, .const (.str text) ∈ operands ∧ Selects module.strings.entries index text
  | .callHost index =>
    ∃ name, .function name ∈ operands ∧ Selects module.strings.entries index name
  | _ => True

namespace StackOp

/-- The symbol that an operation names, by its place. -/
def symbol? : StackOp → Option UInt32
  | .loadField _ _ id _ | .storeField _ id | .call id _ _ _ => some id
  | _ => none

/-- The text that an operation names, by its place. -/
def text? : StackOp → Option UInt32
  | .const (.str index) | .callHost index => some index
  | _ => none

variable {module : StackModule} {operands : List Operand} {op : StackOp}

theorem isNamedBy_of_isPlain (h : op.isPlain = true) : op.IsNamedBy module operands := by
  cases op with
  | const value =>
    cases value with
    | str => cases h
    | _ => trivial
  | loadField | storeField | call | callHost => cases h
  | _ => trivial

/-- A symbol that is named is in the table. -/
theorem IsNamedBy.symbolName (h : op.IsNamedBy module operands)
    {id : UInt32} (hid : op.symbol? = some id) :
    ∃ symbol, module.symbols[id.toNat]? = some symbol ∧ module.symbolName id = symbol.name := by
  have hinside : id.toNat < module.symbols.size := by
    cases op with
    | loadField | storeField | call =>
      cases hid
      obtain ⟨_, _, hselects⟩ := h
      exact hselects.1
    | _ => cases hid
  have hplace := Array.getElem?_eq_getElem hinside
  refine ⟨_, hplace, ?_⟩
  unfold StackModule.symbolName
  rw [hplace]

/-- A text that is named is in the table. -/
theorem IsNamedBy.stringText (h : op.IsNamedBy module operands)
    {index : UInt32} (hindex : op.text? = some index) :
    ∃ text, module.strings.entries[index.toNat]? = some text ∧ module.stringText index = text := by
  have hinside : index.toNat < module.strings.entries.size := by
    cases op with
    | const value =>
      cases value with
      | str =>
        cases hindex
        obtain ⟨_, _, hselects⟩ := h
        exact hselects.1
      | _ => cases hindex
    | callHost =>
      cases hindex
      obtain ⟨_, _, hselects⟩ := h
      exact hselects.1
    | _ => cases hindex
  have hplace := Array.getElem?_eq_getElem hinside
  refine ⟨_, hplace, ?_⟩
  unfold StackModule.stringText StringHeap.get?
  rw [hplace]
  rfl

end StackOp

-- ==== blocks

/-- Filling adds operations that name nothing. -/
theorem Filled.mem_or_isNamedBy {raw ops : List StackOp}
    (h : Filled raw ops) {op : StackOp} (hop : op ∈ ops)
    (module : StackModule) (operands : List Operand) :
    op ∈ raw ∨ op.IsNamedBy module operands := by
  induction h with
  | nil => cases hop
  | keep _ _ ih =>
    rcases List.mem_cons.1 hop with rfl | hmem
    · exact .inl (.head _)
    · exact (ih hmem).imp_left (.tail _)
  | @compare code _ _ hcode _ ih =>
    rcases List.mem_append.1 hop with hmem | hmem
    · obtain ⟨_, upper, _, rfl⟩ := hcode
      rw [List.mem_append, List.mem_append, List.mem_singleton] at hmem
      rcases hmem with (hlower | hupper) | hcompare
      · split at hlower
        · rw [List.mem_cons, List.mem_cons, List.mem_singleton] at hlower
          rcases hlower with rfl | rfl | rfl <;> exact .inr trivial
        · cases hlower
      · exact .inr (StackOp.isNamedBy_of_isPlain (isPlainCode_boxing upper op hupper))
      · rw [hcompare]
        exact .inr trivial
    · exact (ih hmem).imp_left (.tail _)

namespace BlockShape

variable {unchecked : Bool} {final : StackTables} {module : StackModule}
  (hsymbols : module.symbols = final.symbols.toArray) (hstrings : module.strings = final.strings)
include hsymbols hstrings

/-- The operations of a block name what the operands name. -/
theorem isNamedBy {operands : List Operand} {ops : List StackOp}
    (h : BlockShape unchecked final operands ops) :
    ∀ op ∈ ops, op.IsNamedBy module operands := by
  have hsymbol : ∀ {id symbol}, final.HasSymbol id symbol → Selects module.symbols id symbol := by
    intro id symbol hhas
    obtain ⟨place, rfl, hplace⟩ := hhas
    rw [hsymbols]
    exact selects_of_getElem? (List.getElem?_toArray.trans hplace)
  have htext : ∀ {index text}, final.HasText index text →
      Selects module.strings.entries index text := by
    intro index text hhas
    obtain ⟨place, rfl, hplace⟩ := hhas
    rw [hstrings]
    exact selects_of_getElem? hplace
  cases h with
  | plain _ hops =>
    exact fun op hop => StackOp.isNamedBy_of_isPlain (hops op hop)
  | «variable» =>
    rw [List.forall_mem_singleton]
    trivial
  | @text _ text _ _ hoperand hhas hrest =>
    rw [List.forall_mem_cons]
    exact ⟨⟨text, hoperand, htext hhas⟩, fun op hop => StackOp.isNamedBy_of_isPlain (hrest op hop)⟩
  | @field symbol _ op hop hhas =>
    rw [List.forall_mem_singleton]
    cases op with
    | loadField | storeField =>
      cases hop
      exact ⟨symbol, List.mem_singleton_self _, hsymbol hhas⟩
    | _ => cases hop
  | @call symbol _ _ _ _ hhas =>
    rw [List.forall_mem_singleton]
    exact ⟨symbol, List.mem_singleton_self _, hsymbol hhas⟩
  | @callHost name _ hhas =>
    rw [List.forall_mem_singleton]
    exact ⟨name, List.mem_singleton_self _, htext hhas⟩
  | element =>
    rw [List.forall_mem_cons, List.forall_mem_singleton]
    exact ⟨trivial, trivial⟩
  | compareRegisters left right =>
    have hload := isPlainCode_compareOperand
    intro op hop
    rw [List.mem_append, List.mem_append, List.mem_singleton] at hop
    rcases hop with (hleft | hright) | rfl
    · exact StackOp.isNamedBy_of_isPlain (hload left op hleft)
    · exact StackOp.isNamedBy_of_isPlain (hload right op hright)
    · trivial
  | compareStack =>
    rw [List.forall_mem_singleton]
    trivial

/-- So do those of a block that is filled. -/
theorem isNamedBy_filled {operands : List Operand} {raw ops : List StackOp}
    (h : BlockShape unchecked final operands raw) (hfilled : Filled raw ops) :
    ∀ op ∈ ops, op.IsNamedBy module operands := by
  intro op hop
  rcases hfilled.mem_or_isNamedBy hop module operands with hraw | hnamed
  · exact h.isNamedBy hsymbols hstrings op hraw
  · exact hnamed

end BlockShape

-- ==== methods

namespace Lowering

variable (lowering : Lowering) {final : StackTables}

/-- The code of a body names what its instructions name. -/
structure Names (module : StackModule) (body : MethodBody) (ops : List StackOp) : Prop where
  /-- The code is made of blocks. What an operation of a block names is
  what an operand of the instruction names. -/
  blocks : ∃ blocks, List.Forall₂ (fun instruction block =>
      ∀ op ∈ block, op.IsNamedBy module instruction.operands)
      body.instructions blocks
    ∧ ops = lowering.guardOps ++ laid (marks body.labelsByPlace) 0 blocks
  symbols : ∀ op ∈ ops, ∀ id, op.symbol? = some id →
    ∃ symbol, module.symbols[id.toNat]? = some symbol ∧ module.symbolName id = symbol.name
  texts : ∀ op ∈ ops, ∀ index, op.text? = some index →
    ∃ text, module.strings.entries[index.toNat]? = some text ∧ module.stringText index = text

variable {lowering} {module : StackModule}

theorem forall₂_isNamedBy {instructions : List Instruction} {raws blocks : List (List StackOp)}
    (hsymbols : module.symbols = final.symbols.toArray) (hstrings : module.strings = final.strings)
    (hraws : lowering.HaveShapes final instructions raws)
    (hblocks : List.Forall₂ Filled raws blocks) :
    List.Forall₂ (fun instruction block =>
      ∀ op ∈ block, op.IsNamedBy module instruction.operands)
      instructions blocks := by
  induction hraws generalizing blocks with
  | nil =>
    cases hblocks
    exact .nil
  | cons hshape _ ih =>
    cases hblocks with
    | cons hfilled hrest =>
      exact .cons (hshape.isNamedBy_filled hsymbols hstrings hfilled) (ih hrest)

/-- What is outside the blocks names nothing. -/
theorem names_of_blocks {body : MethodBody} {blocks : List (List StackOp)}
    (h : List.Forall₂ (fun instruction block =>
      ∀ op ∈ block, op.IsNamedBy module instruction.operands)
      body.instructions blocks) :
    lowering.Names module body (lowering.guardOps ++ laid (marks body.labelsByPlace) 0 blocks) := by
  have hnamed : ∀ op ∈ lowering.guardOps ++ laid (marks body.labelsByPlace) 0 blocks,
      ∃ operands, op.IsNamedBy module operands := by
    intro op hop
    rcases List.mem_append.1 hop with hguard | hlaid
    · have hplain : op.isPlain = true := by
        unfold guardOps at hguard
        split at hguard
        · cases hguard
        · rw [List.mem_singleton.1 hguard]
          rfl
      exact ⟨[], StackOp.isNamedBy_of_isPlain hplain⟩
    · rcases mem_laid hlaid with ⟨_, hmark⟩ | ⟨block, hblock, hop⟩
      · obtain ⟨_, -, rfl⟩ := List.mem_map.1 hmark
        exact ⟨[], trivial⟩
      · have hblocks : ∀ block ∈ blocks, ∃ operands, ∀ op ∈ block, op.IsNamedBy module operands :=
          forall_mem_of_forall₂ h fun _ _ _ hnames => ⟨_, hnames⟩
        obtain ⟨operands, hnames⟩ := hblocks block hblock
        exact ⟨operands, hnames op hop⟩
  refine ⟨⟨blocks, h, rfl⟩, fun op hop _ hid => ?_, fun op hop _ hindex => ?_⟩
  · obtain ⟨operands, hnames⟩ := hnamed op hop
    exact hnames.symbolName hid
  · obtain ⟨operands, hnames⟩ := hnamed op hop
    exact hnames.stringText hindex

end Lowering

-- ==== programs

namespace Sample

/-- A method that stores to two fields, to the first of them twice. -/
def keeping : Method where
  name := "store"
  attrs := ⟨Attributes.staticBit⟩
  body :=
    { instructions := [ ⟨.single 0x25, [.field (.resolved ⟨.field, "App.Main.x"⟩)], 0⟩,
        ⟨.single 0x25, [.field (.resolved ⟨.field, "App.Main.y"⟩)], 0⟩,
        ⟨.single 0x25, [.field (.resolved ⟨.field, "App.Main.x"⟩)], 0⟩] }

def keeper : Program where
  namespaces := [⟨"App", [{ name := "Main", methods := [keeping] }]⟩]

/-- The code of it. -/
def kept : StackModule where
  symbols := #[⟨.field, "App.Main.x"⟩, ⟨.field, "App.Main.y"⟩]
  strings := {}
  methods := [{
    name := "App.Main.store"
    isStatic := true
    result := .void
    ops := [.callRoutine .ensureStack, .storeField true 0,
      .storeField true 1, .storeField true 0] }]

/-- What the program is lowered with. -/
def keepingWith : Lowering := ⟨.standard, ProgramFacts.ofProgram keeper, {}⟩

theorem run_codeFrom_keeping :
    (keepingWith.codeFrom "App.Main.store" keeping.body.labelsByPlace 0
      keeping.body.instructions).run {}
      = .ok [.storeField true 0, .storeField true 1, .storeField true 0]
        { symbols := kept.symbols.toList } := by
  simp only [keeping, Lowering.codeFrom, Lowering.marks_labelsByPlace_eq_filter]
  rfl

theorem lower_keeper : keeper.lower .standard {} = .ok kept := by
  have hdraft : (keepingWith.draft "App.Main" keeping).run {}
      = .ok kept.methods[0] { symbols := kept.symbols.toList } :=
    run_bind_of_ok run_codeFrom_keeping
  have hmethod : (keepingWith.method "App.Main" keeping).run {}
      = .ok kept.methods[0] { symbols := kept.symbols.toList } := run_bind_of_ok hdraft
  have hmethods : ((Lowering.withBodies keeper).mapM fun entry =>
      keepingWith.method entry.1 entry.2).run {}
      = .ok kept.methods { symbols := kept.symbols.toList } :=
    run_mapM_cons_ok_iff.2 ⟨_, _, [], hmethod, run_mapM_nil_ok_iff.2 ⟨rfl, rfl⟩, rfl⟩
  unfold Program.lower
  rw [keepingWith] at hmethods
  simp only [hmethods]
  rfl

end Sample

end StackAsm
