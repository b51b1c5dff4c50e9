/-
Reading containers. Locals and labels without a name take it from debug
names if there are any, and get a made-up one otherwise. Every branch
gets the instruction its label marks as target.
-/
import StackAsm.Container.Segment
import StackAsm.DebugNames.Basic

namespace StackAsm

namespace Container

-- ==== header

structure Header where
  stripped : Bool
  heap : StringHeap
deriving Repr

def readHeader : Decode Header := do
  let found ← Decode.word16
  if found ≠ version then throw (.unsupportedVersion found)
  let flags ← Decode.byte
  if flags &&& ~~~strippedFlag ≠ 0 then Decode.invalid (.unknownHeaderFlags flags)
  return ⟨flags &&& strippedFlag != 0, ← Decode.heap⟩

/-- Pass the number of children of a segment that can have none. -/
def expectNoChildren (segment : String) : Decode Unit := do
  let count ← Decode.word32
  if count ≠ 0 then Decode.invalid (.children segment count)

def readExternal : Decode String := do
  let path ← Decode.string
  expectNoChildren "extern"
  return path

def readAlias : Decode TypeAlias := do
  let name ← Decode.string
  let kind ← SymbolKind.decode
  let target ← Decode.string
  let dims ← Decode.byte
  expectNoChildren "alias"
  return ⟨name, ⟨.resolved ⟨kind, target⟩, dims⟩⟩

-- ==== methods

/-- What a container is read against. -/
structure Source where
  set : InstructionSet
  heap : StringHeap
  /-- Debug names by the full name of the method. -/
  names : Table String NameTables

/-- Read a parameter or a local. -/
def readVariable (heap : StringHeap) : Decode (Option String × TypeSpec) := do
  Segment.expect "a method signature" .variable
  return (← Decode.heapString? heap, ← TypeSpec.decode heap)

def readParam (heap : StringHeap) (method : String) : Decode Variable := do
  let (name, type) ← readVariable heap
  match name with
  | some name => return ⟨name, type⟩
  | none => Decode.invalid (.unnamedParameter method)

def readLocal (heap : StringHeap) (names : Option NameTables) (slot : UInt16) :
    Decode Variable := do
  let (name, type) ← readVariable heap
  let known := name.or (names.bind (·.locals.get? slot))
  return ⟨known.getD (fallbackLocal slot), type⟩

/-- Which instruction starts at an offset; the code ends at the last
one. -/
def placeTable (offsets : List Nat) : Table Nat Nat := .ofList offsets.zipIdx

/-- Read a label; `places` knows the offsets a label can have. -/
def readLabel (heap : StringHeap) (names : Option NameTables) (method : String)
    (places : Table Nat Nat) : Decode Label := do
  let index ← Decode.word16
  let name ← Decode.heapString? heap
  let offset ← Decode.word32
  match places.get? offset.toNat with
  | none => throw (.badLabelOffset method offset)
  | some place =>
    let known := name.or (names.bind (·.labels.get? index))
    return ⟨known.getD (fallbackLabel offset), index, some (UInt32.ofNat place)⟩

/-- The operand with its target, if it is a label; `Except.error` answers
an index that no label has. -/
def aimOperand (labels : Table UInt16 Label) : Operand → Except UInt16 Operand
  | .label index _ =>
    match (labels.get? index).bind Label.offset with
    | some target => .ok (.label index (some target))
    | none => .error index
  | other => .ok other

def aimInstruction (labels : Table UInt16 Label) (instruction : Instruction) :
    Except UInt16 Instruction := do
  return { instruction with operands := ← instruction.operands.mapM (aimOperand labels) }

/-- Aim every branch of a body. -/
def aim (body : MethodBody) : Except UInt16 MethodBody := do
  let labels := body.labelTable
  return { body with instructions := ← body.instructions.mapM (aimInstruction labels) }

namespace Source

variable (source : Source)

/-- Read the code of a method: the instructions, and the offset of each
of them and of the end. -/
def readCode (method : String) : Decode (List Instruction × List Nat) := do
  let declared ← Decode.word32
  let size ← Decode.word32
  let code ← Decode.exact size.toNat "method code"
  match source.set.decodeCode source.heap code with
  | .error fault => throw fault
  | .ok read =>
    if read.length ≠ declared.toNat then
      Decode.invalid (.instructionCount method declared read.length)
    return (read.map (·.2), read.map (·.1) ++ [code.length])

/-- Read a method of the type with that full name. -/
def readMethod (owner : String) : Decode Method := do
  let name ← Decode.heapString source.heap
  let full := Text.join owner name
  let attrs ← Decode.word16
  let result ← TypeSpec.decode source.heap
  let paramCount ← Decode.word16
  let localCount ← Decode.word16
  let names := source.names.get? full
  let params ← Decode.times paramCount.toNat fun _ => readParam source.heap full
  let locals ← Decode.times localCount.toNat fun slot =>
    readLocal source.heap names (UInt16.ofNat slot)
  let (instructions, offsets) ← source.readCode full
  let labelCount ← Decode.count16 labelSize "labels"
  let places := placeTable offsets
  let labels ← Decode.times labelCount fun _ => readLabel source.heap names full places
  match aim { instructions, labels, locals } with
  | .error index => Decode.invalid (.undeclaredLabel full index)
  | .ok body => return { name, attrs := ⟨attrs⟩, result, params, body }

-- ==== types

def readField : Decode Field := do
  let name ← Decode.heapString source.heap
  let attrs ← Decode.word16
  return { name, attrs := ⟨attrs⟩, type := ← TypeSpec.decode source.heap }

/-- A member of a type. -/
inductive Member where
  | field (item : Field)
  | method (item : Method)
  | nested (item : TypeDecl)

/-- The type with those members. -/
def gather (name : String) (attrs : UInt16) (members : List Member) : TypeDecl where
  name
  attrs := ⟨attrs⟩
  fields := members.filterMap fun
    | .field item => some item
    | _ => none
  methods := members.filterMap fun
    | .method item => some item
    | _ => none
  nested := members.filterMap fun
    | .nested item => some item
    | _ => none

def isMember : Segment → Bool
  | .field | .method | .type => true
  | _ => false

/-- Read a member of the type with that full name; `readNested` reads the
types in it. -/
def readMember (full : String) (readNested : Decode TypeDecl) : Decode Member := do
  match ← Segment.decode "a type" isMember with
  | .field => return .field (← source.readField)
  | .method => return .method (← source.readMethod full)
  | _ => return .nested (← readNested)

/-- Read a type that lies in `outer`, its kind already passed; `depth`
says how many more levels may nest. -/
def readType (outer : String) : Nat → Decode TypeDecl
  | 0 => Decode.invalid .nestedTooDeep
  | depth + 1 => do
    let name ← Decode.heapString source.heap
    let attrs ← Decode.word16
    let full := Text.join outer name
    let count ← Decode.count32 segmentSize "type members"
    let members ← Decode.times count fun _ => source.readMember full (readType full depth)
    return gather name attrs members

-- ==== programs

/-- A declaration at the top of a container. -/
inductive Declaration where
  | external (path : String)
  | typeAlias (entry : TypeAlias)
  | space (name : String) (types : List TypeDecl)

namespace Declaration

def external? : Declaration → Option String
  | .external path => some path
  | _ => none

def typeAlias? : Declaration → Option TypeAlias
  | .typeAlias entry => some entry
  | _ => none

/-- A namespace, unless it has no types. -/
def space? : Declaration → Option Namespace
  | .space name types => if types.isEmpty then none else some ⟨name, types⟩
  | _ => none

end Declaration

/-- Namespaces of one name made one, in the order of their first parts. -/
def mergeNamespaces (spaces : List Namespace) : List Namespace :=
  let parts := Table.groupBy (·.name) spaces
  (spaces.map (·.name)).eraseDups.map fun name => ⟨name, (parts.group name).flatMap (·.types)⟩

/-- The program with those declarations. Namespaces of one name become
one, and one without types leaves no trace. -/
def assemble (declarations : List Declaration) : Program where
  namespaces := mergeNamespaces (declarations.filterMap Declaration.space?)
  externals := (declarations.filterMap Declaration.external?).eraseDups
  aliases := declarations.filterMap Declaration.typeAlias?

def isTopLevel : Segment → Bool
  | .external | .typeAlias | .space => true
  | _ => false

def readNamespace : Decode Declaration := do
  let name ← Decode.string
  let count ← Decode.count32 segmentSize "namespace types"
  let types ← Decode.times count fun _ => do
    Segment.expect "a namespace" .type
    source.readType name depthLimit
  return .space name types

def readDeclaration : Decode Declaration := do
  match ← Segment.decode "the top level" isTopLevel with
  | .external => return .external (← readExternal)
  | .typeAlias => return .typeAlias (← readAlias)
  | _ => source.readNamespace

end Source

/-- Read a whole container. -/
def read (set : InstructionSet) (names : Option DebugNames) : Decode Program := do
  let header ← readHeader
  let source : Source := ⟨set, header.heap, (names.getD {}).methodTable MethodNames.tables⟩
  let count ← Decode.count32 segmentSize "top-level segments"
  let declarations ← Decode.times count fun _ => source.readDeclaration
  Decode.finish
  return Source.assemble declarations

end Container

/-- The program that a container holds. -/
def Program.ofContainer (set : InstructionSet) (names : Option DebugNames)
    (bytes : List UInt8) : Except FormatFault Program :=
  match (Container.read set names).run { chunk := "container", rest := bytes } with
  | .ok program _ => .ok program
  | .error fault _ => .error fault

end StackAsm
