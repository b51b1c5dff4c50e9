/-
What lowering needs to know about a program: which types are value
types, and the types of fields and methods by full name. Of several
declarations of one name the last counts.
-/
import StackAsm.Program.Lookup
import StackAsm.StackCode.Type

namespace StackAsm

/-- A method as its callers see it. -/
structure Signature where
  params : UInt16
  isStatic : Bool
  result : StackType
deriving DecidableEq, Repr

structure ProgramFacts where
  /-- Full names of the value types. -/
  structs : Table String Unit
  /-- Fields by full name. -/
  fields : Table String StackType := .ofList []
  /-- Methods by full name. -/
  methods : Table String Signature := .ofList []

namespace ProgramFacts

/-- The stack type of a type, array dimensions aside. -/
def baseType (facts : ProgramFacts) : Reference → StackType
  | .pending _ => .unknown
  | .resolved symbol =>
    if symbol.kind = .primitive then (StackType.ofPrimitive? symbol.name).getD .unknown
    else if (facts.structs.get? symbol.name).isSome then .struct symbol.name
    else .class symbol.name

def stackType (facts : ProgramFacts) (spec : TypeSpec) : StackType :=
  (facts.baseType spec.reference).arrayOf spec.dims.toNat

def fieldType (facts : ProgramFacts) (name : String) : StackType :=
  (facts.fields.get? name).getD .unknown

/-- The signature of a method; nothing is known of one declared
elsewhere. -/
def signature (facts : ProgramFacts) (name : String) : Signature :=
  (facts.methods.get? name).getD ⟨0, true, .unknown⟩

/-- Full names of the value types of a program. -/
def structsOf (program : Program) : List String :=
  (program.types.filter fun entry => entry.2.attrs.has Attributes.structBit).map (·.1)

def ofProgram (program : Program) : ProgramFacts :=
  let facts : ProgramFacts := { structs := .index id (fun _ => ()) (structsOf program) }
  let fields := program.types.flatMap fun entry =>
    entry.2.fields.map fun field => (Text.join entry.1 field.name, facts.stackType field.type)
  let methods := program.methods.map fun entry =>
    let method := entry.2
    let seen : Signature :=
      ⟨UInt16.ofNat method.params.length, method.attrs.isStatic, facts.stackType method.result⟩
    (Text.join entry.1 method.name, seen)
  { facts with fields := .ofList fields.reverse, methods := .ofList methods.reverse }

end ProgramFacts

end StackAsm
