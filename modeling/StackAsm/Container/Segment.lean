/-
Containers: a version, flags, a string heap and a tree of segments, one
for each declaration. This module has what writing and reading share.
-/
import StackAsm.Container.Code

namespace StackAsm

namespace Container

def version : UInt16 := 1

/-- Set when locals and labels have no names in the container. -/
def strippedFlag : UInt8 := 1

/-- How deep types may nest in a container. -/
def depthLimit : Nat := 64

/-- The name of a local that has none. -/
def fallbackLocal (slot : UInt16) : String := "loc" ++ toString slot.toNat

/-- The name of a label that has none. -/
def fallbackLabel (offset : UInt32) : String := "lbl_" ++ Text.hexOffset offset.toNat

/-- The fewest bytes any segment takes. -/
def segmentSize : Nat := 9

/-- Bytes of a parameter or local. -/
def variableSize : Nat := 11

/-- Bytes of a label. -/
def labelSize : Nat := 10

end Container

/-- What a segment declares. -/
inductive Segment where
  | space
  | type
  | field
  | method
  | typeAlias
  | external
  | variable
deriving DecidableEq, Repr

namespace Segment

def code : Segment → UInt8
  | .space => 1
  | .type => 2
  | .field => 3
  | .method => 4
  | .typeAlias => 5
  | .external => 6
  | .variable => 7

def ofCode? (code : UInt8) : Option Segment :=
  match code.toNat with
  | 1 => some .space
  | 2 => some .type
  | 3 => some .field
  | 4 => some .method
  | 5 => some .typeAlias
  | 6 => some .external
  | 7 => some .variable
  | _ => none

theorem ofCode?_code (segment : Segment) : ofCode? segment.code = some segment := by
  cases segment <;> rfl

/-- Read the kind of a segment; `place` is where it stands, and `allowed`
says what may stand there. -/
def decode (place : String) (allowed : Segment → Bool) : Decode Segment := do
  let code ← Decode.byte
  match ofCode? code with
  | none => throw (.unknownSegment code)
  | some segment =>
    if allowed segment then return segment
    else Decode.invalid (.misplacedSegment code place)

/-- Pass the kind of a segment that must be `segment`. -/
def expect (place : String) (segment : Segment) : Decode Unit :=
  discard (decode place (· == segment))

end Segment

end StackAsm
