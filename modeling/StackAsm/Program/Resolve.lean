/-
Resolution: every pending reference of a program is looked up among the
program's own declarations. Those that are found become symbols; each of
the others is reported where it was written, a missing name once per
line.
-/
import StackAsm.Diagnostic.Log
import StackAsm.Name.Lookup
import StackAsm.Program.References

namespace StackAsm

-- ==== declarations

/-- The declarations of a type and its members. -/
def TypeDecl.declare (table : Declarations) (full : String) (type : TypeDecl) : Declarations :=
  let table := type.fields.foldl (fun t field => t.addField (Text.join full field.name)) table
  let table := type.methods.foldl (fun t method => t.addMethod (Text.join full method.name)) table
  table.addType full

/-- Every declaration of a program. -/
def Program.declarations (program : Program) : Declarations :=
  let table := program.types.foldl (fun t entry => TypeDecl.declare t entry.1 entry.2) {}
  program.externals.foldl Declarations.addExternal table

-- ==== resolving

/-- The reference with its symbol, if lookup finds one. -/
def Declarations.settle (table : Declarations) : Reference → Reference
  | .resolved symbol => .resolved symbol
  | .pending reference =>
    match table.resolve reference with
    | .found symbol => .resolved symbol
    | _ => .pending reference

/-- A diagnostic at the place a reference was written. -/
def PendingReference.complaint (reference : PendingReference) (problem : String) : Diagnostic :=
  { Diagnostic.error .resolution reference.origin.line
      (problem ++ " " ++ reference.kind.describe ++ " reference") (some reference.name) with
    column := reference.origin.column
    file := some reference.origin.file }

/-- What a missing reference is reported under. -/
abbrev MissingKey := String × String × Nat

def PendingReference.missingKey (reference : PendingReference) : MissingKey :=
  (reference.name, reference.origin.file, reference.origin.line)

/-- Diagnostics for the references that lookup does not settle; `reported`
has the missing ones already named. -/
def Declarations.complaints (table : Declarations) (reported : Table MissingKey Unit) :
    List Reference → List Diagnostic
  | [] => []
  | .resolved _ :: rest => table.complaints reported rest
  | .pending reference :: rest =>
    match table.resolve reference with
    | .found _ => table.complaints reported rest
    | .notFound =>
      let key := reference.missingKey
      if (reported.get? key).isSome then table.complaints reported rest
      else reference.complaint "Unresolved" :: table.complaints (reported.insert key ()) rest
    | .ambiguous candidates =>
      { reference.complaint "Ambiguous" with
        notes := candidates.map ("candidate: " ++ ·)
        help := ["qualify the name or remove one of the .using imports"] }
        :: table.complaints reported rest

/-- How many pending references were settled and how many were not. -/
structure ResolveStats where
  resolved : Nat
  unresolved : Nat
deriving DecidableEq, Repr

/-- Resolve every pending reference of a program. -/
def Program.resolve (program : Program) (log : Log) : Program × ResolveStats × Log :=
  let table := program.declarations
  let before := program.references.countP Reference.isPending
  let settled := program.references.map table.settle
  let after := settled.countP Reference.isPending
  (program.mapReferences table.settle,
    ⟨before - after, after⟩,
    log.reportAll (table.complaints ⟨{}⟩ settled))

end StackAsm
