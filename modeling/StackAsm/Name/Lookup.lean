/-
Name lookup. A table lists every declaration by full name; a pending
reference is looked up in it from the inside out.

Order: built-in types first, then aliases are replaced. A member written
without a dot is only looked for in its own type. Anything else is tried
in the enclosing paths from the innermost to the global one, then in the
imported namespaces, where two different hits are ambiguous, and last
among the external namespaces.
-/
import StackAsm.Name.Reference
import StackAsm.Text.Dotted

namespace StackAsm

/-- Add `item` at the end unless it is there already. -/
def insertNew {α : Type} [BEq α] (items : List α) (item : α) : List α :=
  if items.contains item then items else items ++ [item]

/-- Every declaration of a program, by full name. -/
structure Declarations where
  types : List String := []
  fields : List String := []
  methods : List String := []
  externals : List String := []
deriving Repr

/-- What looking up a reference gave. -/
inductive Resolution where
  | found (symbol : Symbol)
  | notFound
  /-- Several imports answer; their full names. -/
  | ambiguous (candidates : List String)
deriving DecidableEq, Repr

namespace Scope

/-- Replace an alias that `name` starts with by what it stands for. -/
def expandAlias (scope : Scope) (name : String) : String :=
  let (head, tail) := Text.splitFirst name
  match scope.aliases.find? (fun entry => entry.1 == head) with
  | none => name
  | some (_, target) =>
    match tail with
    | none => target
    | some tail => target ++ "." ++ tail

/-- The paths from `path` inward through some parts, innermost first;
`outer` follows them. -/
def pathsInward (path : String) (outer : List String) : List String → List String
  | [] => path :: outer
  | part :: rest => pathsInward (path ++ "." ++ part) (path :: outer) rest

/-- The enclosing paths, innermost first, the global one last. -/
def enclosingPaths (scope : Scope) : List String :=
  let base := scope.typePath.getD scope.path
  match if base.isEmpty then [] else Text.dottedParts base with
  | [] => [""]
  | part :: rest => pathsInward part [""] rest

end Scope

namespace Declarations

def addType (table : Declarations) (name : String) : Declarations :=
  { table with types := insertNew table.types name }

def addField (table : Declarations) (name : String) : Declarations :=
  { table with fields := insertNew table.fields name }

def addMethod (table : Declarations) (name : String) : Declarations :=
  { table with methods := insertNew table.methods name }

def addExternal (table : Declarations) (path : String) : Declarations :=
  { table with externals := insertNew table.externals path }

/-- The table of some full names; a repeated name counts once. -/
def ofNames (types fields methods externals : List String) : Declarations where
  types := types.foldl insertNew []
  fields := fields.foldl insertNew []
  methods := methods.foldl insertNew []
  externals := externals.foldl insertNew []

/-- Whether a declaration of that kind and full name exists. -/
def declares (table : Declarations) (kind : ReferenceKind) (name : String) : Bool :=
  match kind with
  | .type => table.types.contains name
  | .field => table.fields.contains name
  | .method => table.methods.contains name

/-- Whether `name` lies strictly inside an external namespace. -/
def isExternal (table : Declarations) (name : String) : Bool :=
  table.externals.any fun path => (Text.within? path name).isSome

/-- The declaration of `name` in the nearest of `paths` that has one. -/
def nearest? (table : Declarations) (kind : ReferenceKind) (name : String)
    (paths : List String) : Option Symbol :=
  (paths.find? fun path => table.declares kind (Text.join path name)).map fun path =>
    ⟨kind.symbolKind, Text.join path name⟩

/-- The different declarations of `name` that `imports` offer. -/
def imported (table : Declarations) (kind : ReferenceKind) (name : String)
    (imports : List String) : List String :=
  ((imports.map (Text.join · name)).filter (table.declares kind)).foldl insertNew []

/-- The external symbol that `name` means, directly or through an import. -/
def external? (table : Declarations) (name : String) (imports : List String) : Option Symbol :=
  ((name :: imports.map (Text.join · name)).find? table.isExternal).map fun full =>
    ⟨.external, full⟩

/-- A member written without a dot, in the enclosing type. -/
def ownMember? (table : Declarations) (kind : ReferenceKind) (name : String) (scope : Scope) :
    Option Symbol :=
  scope.typePath.bind fun path => table.nearest? kind name [path]

/-- Look up a name that is neither built in nor a bare member. -/
def resolveQualified (table : Declarations) (kind : ReferenceKind) (name : String)
    (scope : Scope) : Resolution :=
  match table.nearest? kind name scope.enclosingPaths with
  | some symbol => .found symbol
  | none =>
    match table.imported kind name scope.imports with
    | [full] => .found ⟨kind.symbolKind, full⟩
    | [] =>
      match table.external? name scope.imports with
      | some symbol => .found symbol
      | none => .notFound
    | candidates => .ambiguous candidates

/-- Look up a pending reference. -/
def resolve (table : Declarations) (reference : PendingReference) : Resolution :=
  let isType := reference.kind = .type
  let name := reference.scope.expandAlias reference.name
  if isType ∧ isPrimitiveName reference.name then .found (.primitive reference.name)
  else if isType ∧ isPrimitiveName name then .found (.primitive name)
  else if ¬ isType ∧ ¬ name.toList.contains '.' then
    match table.ownMember? reference.kind name reference.scope with
    | some symbol => .found symbol
    | none => .notFound
  else table.resolveQualified reference.kind name reference.scope

end Declarations

end StackAsm
