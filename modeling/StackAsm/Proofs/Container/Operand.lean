/-
Operands, written and read back. Every kind of operand has a byte that
tells it apart and a width that does not depend on the heap
(`Operand.width`); a label comes back without its target, which is stored
by the label's index alone (`Operand.unaimed`). References must be
resolved to be written at all, so nothing is lost of them.
-/
import StackAsm.Container.Operand
import StackAsm.Proofs.Bytes.Writers

namespace StackAsm

open Encode Decode

-- ==== widths

/-- Bytes of a constant, its kind included. -/
def Constant.width : Constant → Nat
  | .i32 _ | .char _ | .str _ => 5
  | .i64 _ | .f64 _ => 9
  | .bool _ => 2
  | .null => 1

/-- Bytes of an operand, its tag included. -/
def Operand.width : Operand → Nat
  | .const value => 1 + value.width
  | .type _ => 7
  | .nullType => 1
  | .field _ | .method _ => 6
  | .register _ | .flag _ => 2
  | .label _ _ => 3
  | .var _ _ => 4
  | .function _ => 5

/-- The operand as it is stored: a label has lost its target. -/
def Operand.unaimed : Operand → Operand
  | .label index _ => .label index none
  | other => other

-- ==== writing

def Reference.texts : Reference → List String
  | .resolved symbol => [symbol.name]
  | .pending _ => []

def Constant.texts : Constant → List String
  | .str value => [value]
  | _ => []

/-- The texts that an operand puts on a heap. -/
def Operand.texts : Operand → List String
  | .const value => value.texts
  | .type spec => spec.reference.texts
  | .field reference | .method reference => reference.texts
  | .function name => [name]
  | _ => []

section Writing

variable (checks : Checks)

theorem Reference.writes_encode {reference : Reference}
    (h : checks.resolved → reference.isPending = false) :
    reference.encode.Writes reference.texts checks.Leaves := by
  cases reference with
  | resolved symbol => exact (writes_heapString symbol.name).map _ _
  | pending => exact mirrors_throw fun hcheck => nomatch h hcheck

theorem TypeSpec.writes_encode {spec : TypeSpec}
    (h : checks.resolved → spec.reference.isPending = false) :
    spec.encode.Writes spec.reference.texts checks.Leaves :=
  (Reference.writes_encode checks h).map _ _

theorem Operand.writes_encode {operand : Operand}
    (h : checks.resolved → ∀ reference ∈ operand.reference?, reference.isPending = false) :
    operand.encode.Writes operand.texts checks.Leaves := by
  refine Mirrors.map (P := fun _ => True) ?_ _ _
  cases operand with
  | const value =>
    cases value with
    | str text => exact (writes_heapString text).map _ _
    | _ => exact writes_pure _
  | type =>
    exact TypeSpec.writes_encode checks fun hcheck => h hcheck _ rfl
  | field | method =>
    exact Reference.writes_encode checks fun hcheck => h hcheck _ rfl
  | function name => exact writes_heapString name
  | _ => exact writes_pure _

end Writing

theorem TypeSpec.extends_encode (spec : TypeSpec) : spec.encode.Extends :=
  (TypeSpec.writes_encode .none False.elim).extends

theorem Operand.extends_encode (operand : Operand) :
    operand.encode.Extends := (Operand.writes_encode .none False.elim).extends

-- ==== reading back

section Final

variable {reference : Reference} {spec : TypeSpec}

variable {heap later final : StringHeap} {bytes : List UInt8} (hlasts : later.Lasts final)

theorem SymbolKind.reads_decode (kind : SymbolKind) : Reads SymbolKind.decode [kind.code] kind := by
  intro chunk tail position
  unfold SymbolKind.decode
  rw [run_bind_of_ok (reads_byte kind.code chunk tail position)]
  simp only [SymbolKind.ofCode?_code]
  rfl

theorem VariableKind.reads_decode (kind : VariableKind) :
    Reads VariableKind.decode [kind.code] kind := by
  cases kind with
  | argument => exact (reads_byte 0).bind (reads_pure VariableKind.argument)
  | locals => exact (reads_byte 1).bind (reads_pure VariableKind.locals)

theorem Register.reads_decode (r : Register) : Reads Register.decode [r.code] r := by
  intro chunk tail position
  unfold Register.decode
  rw [run_bind_of_ok (reads_byte r.code chunk tail position)]
  simp only [Register.ofCode?_code]
  rfl

theorem Flag.reads_decode (f : Flag) : Reads Flag.decode [f.code] f := by
  intro chunk tail position
  unfold Flag.decode
  rw [run_bind_of_ok (reads_byte f.code chunk tail position)]
  simp only [Flag.ofCode?_code]
  rfl

/-- Every character has a code that is read back as the character. -/
theorem reads_decodeChar (c : Char) : Reads Constant.decodeChar (bytes32 c.val) c := by
  intro chunk tail position
  have hvalid : c.val.toNat.isValidChar := c.valid
  have hchar : Char.ofNat c.val.toNat = c := Char.ofNat_toNat c
  unfold Constant.decodeChar
  rw [run_bind_of_ok (reads_word32 c.val chunk tail position), if_pos hvalid, hchar]
  rfl

/-- A reference that is written is resolved. -/
theorem Reference.encode_ok (h : reference.encode.run heap = .ok bytes later) :
    ∃ symbol name, reference = .resolved symbol
      ∧ (Encode.heapString symbol.name).run heap = .ok name later
      ∧ bytes = symbol.kind.code :: name := by
  cases reference with
  | resolved symbol =>
    obtain ⟨name, hname, rfl⟩ := run_bind_pure_ok_iff.1 h
    exact ⟨symbol, name, rfl, hname, rfl⟩
  | pending => exact (run_throw_ok_iff.1 h).elim

theorem Reference.length_encode (h : reference.encode.run heap = .ok bytes later) :
    bytes.length = 5 := by
  obtain ⟨_, _, -, hname, rfl⟩ := Reference.encode_ok h
  rw [List.length_cons, length_heapString hname]

theorem TypeSpec.encode_ok (h : spec.encode.run heap = .ok bytes later) :
    ∃ front, spec.reference.encode.run heap = .ok front later ∧ bytes = front ++ [spec.dims] := by
  obtain ⟨front, hfront, rfl⟩ := run_bind_pure_ok_iff.1 h
  exact ⟨front, hfront, rfl⟩

theorem TypeSpec.length_encode (h : spec.encode.run heap = .ok bytes later) : bytes.length = 6 := by
  obtain ⟨_, hfront, rfl⟩ := TypeSpec.encode_ok h
  rw [List.length_append, Reference.length_encode hfront]
  rfl

/-- A constant has the width of its kind. -/
theorem Constant.length_encode {value : Constant} (h : value.encode.run heap = .ok bytes later) :
    bytes.length = value.width := by
  cases value with
  | str =>
    obtain ⟨_, hname, rfl⟩ := run_bind_pure_ok_iff.1 h
    rw [List.length_cons, length_heapString hname, Constant.width]
  | _ =>
    obtain ⟨rfl, rfl⟩ := run_pure_ok_iff.1 h
    simp [Constant.width]

/-- An operand has the width of its kind, whatever the heap. -/
theorem Operand.length_encode {operand : Operand} (h : operand.encode.run heap = .ok bytes later) :
    bytes.length = operand.width := by
  obtain ⟨_, hpayload, rfl⟩ := run_bind_pure_ok_iff.1 h
  rw [List.length_cons]
  cases operand with
  | const =>
    rw [Constant.length_encode hpayload, Operand.width, Nat.add_comm]
  | type => rw [TypeSpec.length_encode hpayload, Operand.width]
  | field | method => rw [Reference.length_encode hpayload, Operand.width]
  | function => rw [length_heapString hpayload, Operand.width]
  | _ =>
    obtain ⟨rfl, rfl⟩ := run_pure_ok_iff.1 hpayload
    simp [Operand.width]

include hlasts

/-- A written reference is read back as the symbol it stands for. -/
theorem Reference.reads_encode (h : reference.encode.run heap = .ok bytes later) :
    ∃ symbol, reference = .resolved symbol ∧ Reads (Symbol.decode final) bytes symbol := by
  obtain ⟨symbol, name, rfl, hname, rfl⟩ := Reference.encode_ok h
  refine ⟨symbol, rfl, ?_⟩
  refine symbol.kind.reads_decode.bind ?_
  exact (reads_heapString hlasts hname).map fun name =>
    Symbol.mk symbol.kind name

theorem TypeSpec.reads_encode (h : spec.encode.run heap = .ok bytes later) :
    Reads (TypeSpec.decode final) bytes spec := by
  obtain ⟨_, hfront, rfl⟩ := TypeSpec.encode_ok h
  obtain ⟨symbol, hsymbol, hread⟩ := Reference.reads_encode hlasts hfront
  obtain ⟨_, dims⟩ := spec
  subst hsymbol
  refine hread.bind ?_
  exact (reads_byte dims).map fun dims => TypeSpec.mk (.resolved symbol) dims

/-- A written constant is read back. -/
theorem Constant.reads_encode {value : Constant} (h : value.encode.run heap = .ok bytes later) :
    Reads (Constant.decode final) bytes value := by
  cases value with
  | i32 value =>
    obtain ⟨rfl, rfl⟩ := run_pure_ok_iff.1 h
    refine (reads_byte 1).bind ?_
    have hread := (reads_word32 value.toUInt32).map fun word =>
      Constant.i32 word.toInt32
    rwa [Int32.toInt32_toUInt32] at hread
  | i64 value =>
    obtain ⟨rfl, rfl⟩ := run_pure_ok_iff.1 h
    refine (reads_byte 2).bind ?_
    have hread := (reads_word64 value.toUInt64).map fun word =>
      Constant.i64 word.toInt64
    rwa [Int64.toInt64_toUInt64] at hread
  | f64 value =>
    obtain ⟨rfl, rfl⟩ := run_pure_ok_iff.1 h
    refine (reads_byte 3).bind ?_
    exact (reads_word64 value.bits).map fun word =>
      Constant.f64 ⟨word⟩
  | bool value =>
    obtain ⟨rfl, rfl⟩ := run_pure_ok_iff.1 h
    refine (reads_byte 4).bind ?_
    cases value with
    | true => exact (reads_byte 1).map fun byte => Constant.bool (byte != 0)
    | false => exact (reads_byte 0).map fun byte => Constant.bool (byte != 0)
  | char value =>
    obtain ⟨rfl, rfl⟩ := run_pure_ok_iff.1 h
    refine (reads_byte 5).bind ?_
    exact (reads_decodeChar value).map Constant.char
  | str =>
    obtain ⟨_, hname, rfl⟩ := run_bind_pure_ok_iff.1 h
    refine (reads_byte 6).bind ?_
    exact (reads_heapString hlasts hname).map Constant.str
  | null =>
    obtain ⟨rfl, rfl⟩ := run_pure_ok_iff.1 h
    exact (reads_byte 7).bind (reads_pure Constant.null)

/-- A written operand is read back but for the target of a label. -/
theorem Operand.reads_encode {operand : Operand} (h : operand.encode.run heap = .ok bytes later) :
    Reads (Operand.decode final) bytes operand.unaimed := by
  obtain ⟨_, hpayload, rfl⟩ := run_bind_pure_ok_iff.1 h
  cases operand with
  | const =>
    have hread := Constant.reads_encode hlasts hpayload
    refine (reads_byte 1).bind ?_
    exact hread.map Operand.const
  | type =>
    refine (reads_byte 2).bind ?_
    exact (TypeSpec.reads_encode hlasts hpayload).map Operand.type
  | nullType =>
    obtain ⟨rfl, rfl⟩ := run_pure_ok_iff.1 hpayload
    exact (reads_byte 3).bind (reads_pure Operand.nullType)
  | field =>
    obtain ⟨symbol, rfl, hread⟩ := Reference.reads_encode hlasts hpayload
    refine (reads_byte 4).bind ?_
    exact hread.map fun symbol => Operand.field (.resolved symbol)
  | method =>
    obtain ⟨symbol, rfl, hread⟩ := Reference.reads_encode hlasts hpayload
    refine (reads_byte 5).bind ?_
    exact hread.map fun symbol => Operand.method (.resolved symbol)
  | register r =>
    obtain ⟨rfl, rfl⟩ := run_pure_ok_iff.1 hpayload
    refine (reads_byte 6).bind ?_
    exact r.reads_decode.map Operand.register
  | flag f =>
    obtain ⟨rfl, rfl⟩ := run_pure_ok_iff.1 hpayload
    refine (reads_byte 7).bind ?_
    exact f.reads_decode.map Operand.flag
  | label index =>
    obtain ⟨rfl, rfl⟩ := run_pure_ok_iff.1 hpayload
    -- the target is not written; it is found again with the labels
    refine (reads_byte 8).bind ?_
    exact (reads_word16 index).map fun index => Operand.label index none
  | var kind slot =>
    obtain ⟨rfl, rfl⟩ := run_pure_ok_iff.1 hpayload
    refine (reads_byte 9).bind ?_
    exact kind.reads_decode.bind ((reads_word16 slot).map fun slot => Operand.var kind slot)
  | function =>
    refine (reads_byte 10).bind ?_
    exact (reads_heapString hlasts hpayload).map Operand.function

end Final

-- ==== on any heap, and on any later one

/-- An operand whose reference is looked up can be written on every heap,
and only adds to it. Its kind says how many bytes that takes. They are
read back as the operand without the target of a label, and nothing
behind them is touched, on every heap that begins with the entries there
are by then. -/
theorem Operand.encode_delimits (operand : Operand)
    (hresolved : ∀ reference ∈ operand.reference?,
      reference.isPending = false) (heap : StringHeap) :
    ∃ bytes later, operand.encode.run heap = .ok bytes later
      ∧ heap.Grows later ∧ bytes.length = operand.width
      ∧ (later.size < UInt32.size → ∀ final, later.Grows final →
        Reads (Operand.decode final) bytes operand.unaimed) := by
  have hwrites := Operand.writes_encode .all fun _ => hresolved
  obtain ⟨bytes, hrun⟩ := hwrites.exists_run Checks.not_leaves_all heap
  refine ⟨bytes, _, hrun, hwrites.extends heap _ _ hrun, Operand.length_encode hrun, ?_⟩
  intro hfits final hgrows
  exact Operand.reads_encode ⟨hgrows, hfits⟩ hrun

namespace Sample

/-- A call of a method whose name is on no heap yet. -/
def freshCall : Operand := .method (.resolved ⟨.method, "App.Main.run"⟩)

theorem encode_delimits_freshCall :
    (∀ reference ∈ freshCall.reference?, reference.isPending = false)
      ∧ ∃ bytes later, freshCall.encode.run (.ofEntries ["a", "a"]) = .ok bytes later
          ∧ (StringHeap.ofEntries ["a", "a"]).Grows later
          ∧ bytes.length = 6
          ∧ (later.size < UInt32.size → ∀ final, later.Grows final →
            Reads (Operand.decode final) bytes freshCall) := by
  have hresolved : ∀ reference ∈ freshCall.reference?, reference.isPending = false := by decide
  exact ⟨hresolved, freshCall.encode_delimits hresolved _⟩

end Sample

end StackAsm
