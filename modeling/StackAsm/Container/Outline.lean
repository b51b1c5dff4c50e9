/-
The outline of a container: its declarations and the sizes of its
methods, read without looking into the code.
-/
import StackAsm.Container.Read

namespace StackAsm

structure MethodOutline where
  name : String
  params : UInt16
  locals : UInt16
  instructions : UInt32
  codeBytes : UInt32
  labels : Nat
deriving DecidableEq, Repr

structure TypeOutline where
  /-- Full name of the type. -/
  name : String
  attrs : UInt16
  fields : List String := []
  methods : List MethodOutline := []
deriving DecidableEq, Repr

structure Outline where
  stripped : Bool
  strings : Nat
  externals : List String := []
  /-- Aliases with the text of their targets. -/
  aliases : List (String × String) := []
  /-- Every type, a nested one behind the type around it. -/
  types : List TypeOutline := []
deriving DecidableEq, Repr

namespace Outline

open Container

def readMethod (heap : StringHeap) : Decode MethodOutline := do
  let name ← Decode.heapString heap
  let _ ← Decode.word16
  let _ ← TypeSpec.decode heap
  let params ← Decode.word16
  let locals ← Decode.word16
  let vars := params.toNat + locals.toNat
  if isShorter (← get).rest (vars * variableSize) then
    throw (.endOfInput ("container variables of " ++ name))
  let _ ← Decode.times vars fun _ => readVariable heap
  let instructions ← Decode.word32
  let codeBytes ← Decode.word32
  let _ ← Decode.exact codeBytes.toNat "method code"
  let labels ← Decode.count16 labelSize "labels"
  let _ ← Decode.exact (labels * labelSize) "labels"
  return ⟨name, params, locals, instructions, codeBytes, labels⟩

def readField (heap : StringHeap) : Decode String := do
  let name ← Decode.heapString heap
  let _ ← Decode.word16
  let _ ← TypeSpec.decode heap
  return name

/-- A member of a type; a nested type comes with those nested in it. -/
inductive Member where
  | field (name : String)
  | method (outline : MethodOutline)
  | nested (types : List TypeOutline)

/-- The outlines of a type and the types nested in it. -/
def gather (name : String) (attrs : UInt16) (members : List Member) : List TypeOutline :=
  let fields := members.filterMap fun
    | .field name => some name
    | _ => none
  let methods := members.filterMap fun
    | .method outline => some outline
    | _ => none
  let nested := members.flatMap fun
    | .nested types => types
    | _ => []
  { name, attrs, fields, methods } :: nested

/-- Read a type that lies in `outer`, with the types nested in it. -/
def readType (heap : StringHeap) (outer : String) : Nat → Decode (List TypeOutline)
  | 0 => Decode.invalid .nestedTooDeep
  | depth + 1 => do
    let full := Text.join outer (← Decode.heapString heap)
    let attrs ← Decode.word16
    let count ← Decode.count32 segmentSize "type members"
    let members ← Decode.times count fun _ => do
      match ← Segment.decode "a type" Source.isMember with
      | .field => return Member.field (← readField heap)
      | .method => return Member.method (← readMethod heap)
      | _ => return Member.nested (← readType heap full depth)
    return gather full attrs members

/-- A declaration at the top of a container. -/
inductive Declaration where
  | external (path : String)
  | typeAlias (entry : TypeAlias)
  | types (outlines : List TypeOutline)

def readDeclaration (heap : StringHeap) : Decode Declaration := do
  match ← Segment.decode "the top level" Source.isTopLevel with
  | .external => return .external (← readExternal)
  | .typeAlias => return .typeAlias (← readAlias)
  | _ =>
    let name ← Decode.string
    let count ← Decode.count32 segmentSize "namespace types"
    let types ← Decode.times count fun _ => do
      Segment.expect "a namespace" .type
      readType heap name depthLimit
    return .types types.flatten

/-- The outline with those declarations. -/
def assemble (header : Header) (declarations : List Declaration) : Outline where
  stripped := header.stripped
  strings := header.heap.size
  externals := declarations.filterMap fun
    | .external path => some path
    | _ => none
  aliases := declarations.filterMap fun
    | .typeAlias entry => some (entry.name, entry.target.display)
    | _ => none
  types := declarations.flatMap fun
    | .types outlines => outlines
    | _ => []

def read : Decode Outline := do
  let header ← readHeader
  let count ← Decode.count32 segmentSize "top-level segments"
  let declarations ← Decode.times count fun _ => readDeclaration header.heap
  Decode.finish
  return assemble header declarations

/-- The outline of a container. -/
def ofContainer (bytes : List UInt8) : Except FormatFault Outline :=
  match read.run { chunk := "container", rest := bytes } with
  | .ok outline _ => .ok outline
  | .error fault _ => .error fault

end Outline

end StackAsm
