/-
Finding declarations in a program. A type's full name is the path of its
namespace followed by the names on the way through the types that nest
it; of several namespaces that lead to a type of that name the last one
counts. Walks visit a type before the types nested in it.
-/
import StackAsm.Program.Basic
import StackAsm.Table
import StackAsm.Text.Dotted

namespace StackAsm

-- ==== members

namespace MethodBody

/-- The slot of a local; slots are counted in sixteen bits. -/
def localSlot? (body : MethodBody) (name : String) : Option UInt16 :=
  (body.locals.findIdx? (·.name == name)).map UInt16.ofNat

def label? (body : MethodBody) (name : String) : Option Label :=
  body.labels.find? (·.name == name)

/-- The first label with that index. -/
def labelAt? (body : MethodBody) (index : UInt16) : Option Label :=
  body.labels.find? (·.index == index)

/-- The labels by index. -/
def labelTable (body : MethodBody) : Table UInt16 Label := .index (·.index) id body.labels

theorem get?_labelTable (body : MethodBody) (index : UInt16) :
    body.labelTable.get? index = body.labelAt? index := by
  rw [labelTable, Table.get?_index, Option.map_id, labelAt?]
  rfl

end MethodBody

/-- Labels by the instruction they mark. -/
structure LabelsByPlace where
  groups : Table (Option UInt32) (List Label)

def MethodBody.labelsByPlace (body : MethodBody) : LabelsByPlace :=
  ⟨.groupBy (·.offset) body.labels⟩

/-- The labels at a place among the instructions; places are counted in
thirty-two bits. -/
def LabelsByPlace.placedAt (labels : LabelsByPlace) (place : Nat) : List Label :=
  labels.groups.group (some (UInt32.ofNat place))

theorem MethodBody.placedAt_labelsByPlace (body : MethodBody) (place : Nat) :
    body.labelsByPlace.placedAt place =
      body.labels.filter fun label => label.offset == some (UInt32.ofNat place) :=
  Table.group_groupBy ..

namespace Method

/-- The slot of a parameter; slots are counted in sixteen bits. -/
def paramSlot? (method : Method) (name : String) : Option UInt16 :=
  (method.params.findIdx? (·.name == name)).map UInt16.ofNat

end Method

namespace TypeDecl

def method? (type : TypeDecl) (name : String) : Option Method :=
  type.methods.find? (·.name == name)

def field? (type : TypeDecl) (name : String) : Option Field :=
  type.fields.find? (·.name == name)

def nested? (type : TypeDecl) (name : String) : Option TypeDecl :=
  type.nested.find? (·.name == name)

-- ==== nested types

/-- Follow a path of type names downward. -/
def atPath? : List String → List TypeDecl → Option TypeDecl
  | [], _ => none
  | [name], types => types.find? (·.name == name)
  | name :: rest, types => (types.find? (·.name == name)).bind fun type => atPath? rest type.nested

/-- Change the first element that satisfies `p`. -/
def changeFirst {α : Type} (p : α → Bool) (change : α → α) : List α → List α
  | [] => []
  | item :: rest => if p item then change item :: rest else item :: changeFirst p change rest

/-- Change the type at a path of type names. -/
def changeAtPath (change : TypeDecl → TypeDecl) : List String → List TypeDecl → List TypeDecl
  | [], types => types
  | [name], types => changeFirst (·.name == name) change types
  | name :: rest, types =>
    changeFirst (·.name == name)
      (fun type => { type with nested := changeAtPath change rest type.nested }) types

mutual

/-- The type and all types nested in it, by full name. -/
def walk (outer : String) : TypeDecl → List (String × TypeDecl)
  | ⟨name, attrs, fields, methods, nested, line⟩ =>
    let full := Text.join outer name
    (full, ⟨name, attrs, fields, methods, nested, line⟩) :: walkAll full nested

def walkAll (outer : String) : List TypeDecl → List (String × TypeDecl)
  | [] => []
  | type :: rest => walk outer type ++ walkAll outer rest

end

end TypeDecl

-- ==== namespaces

namespace Namespace

def type? (space : Namespace) (name : String) : Option TypeDecl :=
  space.types.find? (·.name == name)

/-- The path of type names that a full name gives inside this
namespace. -/
def innerPath? (space : Namespace) (full : String) : Option (List String) :=
  (if space.name.isEmpty then some full else Text.within? space.name full).map Text.dottedParts

/-- The type of that full name. -/
def find? (space : Namespace) (full : String) : Option TypeDecl :=
  (space.innerPath? full).bind fun path => TypeDecl.atPath? path space.types

end Namespace

namespace Program

def namespace? (program : Program) (name : String) : Option Namespace :=
  program.namespaces.find? (·.name == name)

/-- Change the namespace of that path, which is added if missing. -/
def changeNamespace (program : Program) (name : String) (change : Namespace → Namespace) :
    Program :=
  if program.namespaces.any (·.name == name) then
    { program with namespaces := TypeDecl.changeFirst (·.name == name) change program.namespaces }
  else
    { program with namespaces := program.namespaces ++ [change ⟨name, []⟩] }

/-- Append a type to a namespace. -/
def addType (program : Program) (name : String) (type : TypeDecl) : Program :=
  program.changeNamespace name fun space => { space with types := space.types ++ [type] }

def addExternal (program : Program) (path : String) : Program :=
  if program.externals.contains path then program
  else { program with externals := program.externals ++ [path] }

/-- The type of that full name. -/
def find? (program : Program) (full : String) : Option TypeDecl :=
  program.namespaces.reverse.findSome? (·.find? full)

/-- Change the type of that full name, searching from the last
namespace; `none` if there is no such type. -/
def changeLast? (full : String) (change : TypeDecl → TypeDecl) :
    List Namespace → Option (List Namespace)
  | [] => none
  | space :: rest =>
    match changeLast? full change rest with
    | some changed => some (space :: changed)
    | none =>
      match space.innerPath? full with
      | none => none
      | some path =>
        if (TypeDecl.atPath? path space.types).isSome then
          some ({ space with types := TypeDecl.changeAtPath change path space.types } :: rest)
        else none

/-- Change the type of that full name. -/
def changeType? (program : Program) (full : String) (change : TypeDecl → TypeDecl) :
    Option Program :=
  (changeLast? full change program.namespaces).map fun namespaces => { program with namespaces }

/-- The method of that full name. -/
def method? (program : Program) (full : String) : Option Method :=
  (Text.splitLast? full).bind fun parts =>
    (program.find? parts.1).bind fun type => type.method? parts.2

/-- Every type by full name, nested ones behind the type around them. -/
def types (program : Program) : List (String × TypeDecl) :=
  program.namespaces.flatMap fun space => TypeDecl.walkAll space.name space.types

/-- Every method with the full name of its type. -/
def methods (program : Program) : List (String × Method) :=
  program.types.flatMap fun entry => entry.2.methods.map fun method => (entry.1, method)

end Program

end StackAsm
