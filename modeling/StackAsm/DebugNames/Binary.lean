/-
Debug name files: a mark, a version, a heap with every name, and the
names by namespace, type and method.
-/
import StackAsm.Bytes.Decode
import StackAsm.Bytes.Encode
import StackAsm.Bytes.Pieces
import StackAsm.DebugNames.Basic

namespace StackAsm

namespace DebugNames

/-- The bytes a debug name file starts with. -/
def magic : List UInt8 := [0x43, 0x50, 0x44, 0x42, 0x1A, 0xEE, 0xFE]

def version : UInt16 := 1

/-- How deep types may nest in a binary file. -/
def depthLimit : Nat := 64

end DebugNames

-- ==== writing

def LocalName.encode (entry : LocalName) : Encode (List UInt8) :=
  return (← Encode.heapString entry.name) ++ bytes16 entry.slot

def LabelName.encode (entry : LabelName) : Encode (List UInt8) :=
  return (← Encode.heapString entry.name) ++ bytes16 entry.index ++ bytes32 entry.offset

def MethodNames.encode (names : MethodNames) : Encode (List UInt8) := do
  let name ← Encode.heapString names.name
  let localCount ← Encode.lift (Encode.count16 names.locals.length "cpdb locals")
  let locals ← Encode.all names.locals LocalName.encode
  let labelCount ← Encode.lift (Encode.count16 names.labels.length "cpdb labels")
  let labels ← Encode.all names.labels LabelName.encode
  return name ++ localCount ++ locals ++ labelCount ++ labels

mutual

def TypeNames.encode : TypeNames → Encode Pieces
  | ⟨name, nested, methods⟩ => do
    let name ← Encode.heapString name
    let nestedCount ← Encode.lift (Encode.count32 nested.length "cpdb nested types")
    let inner ← encodeAll nested
    let methodCount ← Encode.lift (Encode.count32 methods.length "cpdb methods")
    let own ← Encode.all methods MethodNames.encode
    return (name ++ nestedCount : List UInt8) ++ inner ++ (methodCount ++ own : List UInt8)

def TypeNames.encodeAll : List TypeNames → Encode Pieces
  | [] => return .one []
  | type :: rest => return (← TypeNames.encode type) ++ (← encodeAll rest)

end

def NamespaceNames.encode (names : NamespaceNames) : Encode (List UInt8) := do
  let name ← Encode.heapString names.name
  let count ← Encode.lift (Encode.count32 names.types.length "cpdb types")
  return name ++ count ++ (← TypeNames.encodeAll names.types).toList

/-- What follows the heap. -/
def DebugNames.encodeBody (db : DebugNames) : Encode (List UInt8) := do
  let count ← Encode.lift (Encode.count32 db.namespaces.length "cpdb namespaces")
  return count ++ (← Encode.all db.namespaces NamespaceNames.encode)

/-- The file with those names. -/
def DebugNames.encode (db : DebugNames) : Except FormatFault (List UInt8) :=
  match db.encodeBody.run {} with
  | .error fault _ => .error fault
  | .ok body heap => do
    return DebugNames.magic ++ bytes16 DebugNames.version ++ (← Encode.heap heap) ++ body

-- ==== reading

def LocalName.decode (heap : StringHeap) : Decode LocalName :=
  return ⟨← Decode.heapString heap, ← Decode.word16⟩

def LabelName.decode (heap : StringHeap) : Decode LabelName :=
  return ⟨← Decode.heapString heap, ← Decode.word16, ← Decode.word32⟩

def MethodNames.decode (heap : StringHeap) : Decode MethodNames := do
  let name ← Decode.heapString heap
  let localCount ← Decode.count16 6 "locals"
  let locals ← Decode.times localCount fun _ => LocalName.decode heap
  let labelCount ← Decode.count16 10 "labels"
  let labels ← Decode.times labelCount fun _ => LabelName.decode heap
  return ⟨name, locals, labels⟩

/-- Read a type; `depth` says how many more levels may nest. -/
def TypeNames.decode (heap : StringHeap) : Nat → Decode TypeNames
  | 0 => Decode.invalid .nestedTooDeep
  | depth + 1 => do
    let name ← Decode.heapString heap
    let nestedCount ← Decode.count32 12 "nested types"
    let nested ← Decode.times nestedCount fun _ => decode heap depth
    let methodCount ← Decode.count32 8 "methods"
    let methods ← Decode.times methodCount fun _ => MethodNames.decode heap
    return ⟨name, nested, methods⟩

def NamespaceNames.decode (heap : StringHeap) : Decode NamespaceNames := do
  let name ← Decode.heapString heap
  let count ← Decode.count32 12 "types"
  return ⟨name, ← Decode.times count fun _ => TypeNames.decode heap DebugNames.depthLimit⟩

namespace DebugNames

/-- Pass the mark. A file too short to hold it does not start with it. -/
def decodeMagic : Decode Unit := do
  let input ← get
  let found := input.rest.take magic.length
  if found = magic then discard (Decode.exact magic.length "magic")
  else throw (.invalidMagic found)

def decodeBody : Decode DebugNames := do
  decodeMagic
  let found ← Decode.word16
  if found ≠ version then throw (.unsupportedVersion found)
  let heap ← Decode.heap
  let count ← Decode.count32 8 "namespaces"
  let namespaces ← Decode.times count fun _ => NamespaceNames.decode heap
  Decode.finish
  return ⟨namespaces⟩

/-- The names that a file holds. -/
def decode (bytes : List UInt8) : Except FormatFault DebugNames :=
  match decodeBody.run { chunk := "cpdb", rest := bytes } with
  | .ok db _ => .ok db
  | .error fault _ => .error fault

end DebugNames

end StackAsm
