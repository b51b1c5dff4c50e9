/-
Numbers as bytes, lowest byte first. `ofLittleEndian_littleEndian` says
that a number which fits the width is read back.
-/

namespace StackAsm

/-- The `width` lowest bytes of a number. -/
def littleEndian : Nat → Nat → List UInt8
  | 0, _ => []
  | width + 1, n => UInt8.ofNat n :: littleEndian width (n / 256)

/-- The number that bytes stand for. -/
def ofLittleEndian : List UInt8 → Nat
  | [] => 0
  | byte :: rest => byte.toNat + 256 * ofLittleEndian rest

@[simp] theorem length_littleEndian (width n : Nat) : (littleEndian width n).length = width := by
  induction width generalizing n with
  | zero => rfl
  | succ width ih => simp [littleEndian, ih]

theorem ofLittleEndian_littleEndian (width n : Nat) (h : n < Nat.pow 256 width) :
    ofLittleEndian (littleEndian width n) = n := by
  induction width generalizing n with
  | zero =>
    have small : n < 1 := h
    have zero : n = 0 := by omega
    simp [littleEndian, ofLittleEndian, zero]
  | succ width ih =>
    have wide : n < Nat.pow 256 width * 256 := h
    have fits : n / 256 < Nat.pow 256 width := by omega
    simp only [littleEndian, ofLittleEndian, ih _ fits, UInt8.toNat_ofNat']
    omega

/-- Two bytes. -/
def bytes16 (n : UInt16) : List UInt8 := littleEndian 2 n.toNat

/-- Four bytes. -/
def bytes32 (n : UInt32) : List UInt8 := littleEndian 4 n.toNat

/-- Eight bytes. -/
def bytes64 (n : UInt64) : List UInt8 := littleEndian 8 n.toNat

end StackAsm
