/-
Writing containers. Names of locals and labels can be left out; they are
then answered as debug names.
-/
import StackAsm.Bytes.Pieces
import StackAsm.Container.Segment
import StackAsm.DebugNames.Basic

namespace StackAsm

/-- How a program is written. -/
structure ContainerStyle where
  set : InstructionSet
  /-- Leave out the names of locals and labels. -/
  stripNames : Bool

namespace ContainerStyle

variable (style : ContainerStyle)

-- ==== methods

/-- Write a parameter or a local, with its name if `named`. -/
def writeVariable (named : Bool) (var : Variable) : Encode (List UInt8) := do
  let name ← Encode.heapString? (if named then some var.name else none)
  return Segment.variable.code :: name ++ (← var.type.encode)

/-- The byte offset of a label. -/
def labelOffset? (offsets : Array UInt32) (label : Label) : Option UInt32 :=
  label.offset.bind fun index => offsets[index.toNat]?

/-- Write a label of the method with that full name and those offsets. -/
def writeLabel (full : String) (offsets : Array UInt32) (label : Label) :
    Encode (List UInt8 × LabelName) := do
  match labelOffset? offsets label with
  | none => throw (.invalid "method" (.unplacedLabel label.name full))
  | some offset =>
    let name ← Encode.heapString? (if style.stripNames then none else some label.name)
    return (bytes16 label.index ++ name ++ bytes32 offset, ⟨label.name, label.index, offset⟩)

/-- Names of locals, by slot. -/
def localNames (locals : List Variable) : List LocalName :=
  locals.mapIdx fun slot var => ⟨var.name, UInt16.ofNat slot⟩

/-- Write a method of the type with that full name. -/
def writeMethod (owner : String) (method : Method) : Encode (List UInt8 × MethodNames) := do
  let body := method.body
  let name ← Encode.heapString method.name
  let result ← method.result.encode
  let paramCount ← Encode.lift (Encode.count16 method.params.length "parameters")
  let localCount ← Encode.lift (Encode.count16 body.locals.length "locals")
  let params ← Encode.all method.params (writeVariable true)
  let locals ← Encode.all body.locals (writeVariable (!style.stripNames))
  let code ← style.set.encodeCode body.instructions
  let size ← Encode.lift (Encode.count32 body.instructions.length "instructions")
  let codeSize ← Encode.lift (Encode.count32 code.bytes.length "method code length")
  let labelCount ← Encode.lift (Encode.count16 body.labels.length "labels")
  let offsets := code.offsets.toArray
  let labels ← body.labels.mapM (style.writeLabel (Text.join owner method.name) offsets)
  let bytes :=
    Segment.method.code :: name ++ bytes16 method.attrs.bits ++ result ++ paramCount ++ localCount
      ++ params ++ locals ++ size ++ codeSize ++ code.bytes
      ++ labelCount ++ (labels.map (·.1)).flatten
  return (bytes, ⟨method.name, localNames body.locals, labels.map (·.2)⟩)

-- ==== types

def writeField (field : Field) : Encode (List UInt8) := do
  let name ← Encode.heapString field.name
  return Segment.field.code :: name ++ bytes16 field.attrs.bits ++ (← field.type.encode)

mutual

/-- Write a type that lies in `outer`. -/
def writeType (outer : String) : TypeDecl → Encode (Pieces × TypeNames)
  | ⟨name, attrs, fields, methods, nested, _⟩ => do
    let full := Text.join outer name
    let nameBytes ← Encode.heapString name
    let members := fields.length + methods.length + nested.length
    let count ← Encode.lift (Encode.count32 members "type members")
    let fieldBytes ← Encode.all fields writeField
    let written ← methods.mapM (style.writeMethod full)
    let (nestedBytes, nestedNames) ← writeTypes full nested
    let own :=
      Segment.type.code :: nameBytes ++ bytes16 attrs.bits ++ count ++ fieldBytes
        ++ (written.map (·.1)).flatten
    return (own ++ nestedBytes, ⟨name, nestedNames, written.map (·.2)⟩)

/-- Write the types that lie in `outer`. -/
def writeTypes (outer : String) : List TypeDecl → Encode (Pieces × List TypeNames)
  | [] => return (.one [], [])
  | type :: rest => do
    let (bytes, names) ← writeType outer type
    let (restBytes, restNames) ← writeTypes outer rest
    return (bytes ++ restBytes, names :: restNames)

end

-- ==== programs

def writeNamespace (space : Namespace) : Encode (List UInt8 × NamespaceNames) := do
  let name ← Encode.lift (Encode.string "namespace" space.name)
  let count ← Encode.lift (Encode.count32 space.types.length "namespace types")
  let (types, names) ← style.writeTypes space.name space.types
  return (Segment.space.code :: name ++ count ++ types.toList, ⟨space.name, names⟩)

def writeExternal (path : String) : Except FormatFault (List UInt8) := do
  return Segment.external.code :: (← Encode.string "extern" path) ++ bytes32 0

/-- An alias segment has its target's name in full. -/
def writeAlias (entry : TypeAlias) : Except FormatFault (List UInt8) := do
  let name ← Encode.string "alias" entry.name
  match entry.target.reference with
  | .pending reference => .error (.unresolved reference.name)
  | .resolved symbol =>
    let target ← Encode.string "alias target" symbol.name
    return Segment.typeAlias.code :: name ++ symbol.kind.code :: target
      ++ entry.target.dims :: bytes32 0

/-- What follows the heap. -/
def writeBody (program : Program) : Encode (List UInt8 × DebugNames) := do
  let segments :=
    program.externals.length + program.aliases.length + program.namespaces.length
  let count ← Encode.lift (Encode.count32 segments "top-level segments")
  let externals ← Encode.lift (program.externals.mapM writeExternal)
  let aliases ← Encode.lift (program.aliases.mapM writeAlias)
  let namespaces ← program.namespaces.mapM style.writeNamespace
  let bytes := count ++ externals.flatten ++ aliases.flatten ++ (namespaces.map (·.1)).flatten
  return (bytes, ⟨namespaces.map (·.2)⟩)

end ContainerStyle

/-- A written container, with the names that were left out of it. -/
structure ContainerImage where
  bytes : List UInt8
  debug : Option DebugNames
deriving DecidableEq, Repr

/-- Write a program whose references are all resolved. -/
def Program.toContainer (program : Program) (style : ContainerStyle) :
    Except FormatFault ContainerImage :=
  match (style.writeBody program).run {} with
  | .error fault _ => .error fault
  | .ok (body, names) heap => do
    let flags := if style.stripNames then Container.strippedFlag else 0
    let bytes := bytes16 Container.version ++ flags :: (← Encode.heap heap) ++ body
    return ⟨bytes, if style.stripNames then some names else none⟩

end StackAsm
