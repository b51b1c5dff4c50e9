/-
Bytes in pieces. What is written of a type holds what is written of the
types nested in it; pieces are put together without copying them, and
made one list once, at the end.
-/

namespace StackAsm

inductive Pieces where
  | one (bytes : List UInt8)
  | two (front back : Pieces)

namespace Pieces

instance : Append Pieces := ⟨two⟩

instance : Coe (List UInt8) Pieces := ⟨one⟩

/-- The bytes, with others behind them. -/
def onto : Pieces → List UInt8 → List UInt8
  | .one bytes, rest => bytes ++ rest
  | .two front back, rest => front.onto (back.onto rest)

def toList (pieces : Pieces) : List UInt8 := pieces.onto []

theorem onto_eq (pieces : Pieces) (rest : List UInt8) :
    pieces.onto rest = pieces.toList ++ rest := by
  unfold toList
  induction pieces generalizing rest with
  | one bytes => simp [onto]
  | two front back ihFront ihBack =>
    rw [onto, onto, ihFront, ihBack, ihFront (back.onto [])]
    simp

@[simp] theorem toList_one (bytes : List UInt8) : (one bytes).toList = bytes := by
  simp [toList, onto]

@[simp] theorem toList_append (front back : Pieces) :
    (front ++ back).toList = front.toList ++ back.toList := by
  change front.onto (back.onto []) = _
  rw [onto_eq, toList, toList]

end Pieces

end StackAsm
