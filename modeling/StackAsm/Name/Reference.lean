/-
References: names written in source text. A reference starts out
pending, with everything needed to look it up later: what it must name,
the scope it was written in and where. Lookup replaces it by a symbol.
-/
import StackAsm.Name.Symbol

namespace StackAsm

/-- What a reference must name. -/
inductive ReferenceKind where
  | type
  | field
  | method
deriving DecidableEq, Repr

namespace ReferenceKind

def describe : ReferenceKind → String
  | .type => "type"
  | .field => "field"
  | .method => "method"

/-- The kind of the symbols that answer such a reference. -/
def symbolKind : ReferenceKind → SymbolKind
  | .type => .type
  | .field => .field
  | .method => .method

end ReferenceKind

/-- What is visible at one place of the source. -/
structure Scope where
  /-- Dotted path of the enclosing namespace, empty at the top. -/
  path : String
  /-- Full name of the enclosing type, if any. -/
  typePath : Option String
  /-- Namespaces opened with `.using`, innermost first. -/
  imports : List String
  /-- Aliases and what they stand for, the last one first; it hides those
  behind it. -/
  aliases : List (String × String)
deriving DecidableEq, Repr

/-- Where a reference was written. -/
structure Origin where
  file : String
  line : Nat
  column : Option Nat
deriving DecidableEq, Repr

/-- A name still to be looked up. -/
structure PendingReference where
  name : String
  kind : ReferenceKind
  scope : Scope
  origin : Origin
deriving DecidableEq, Repr

inductive Reference where
  | resolved (symbol : Symbol)
  | pending (reference : PendingReference)
deriving DecidableEq, Repr

namespace Reference

def symbol? : Reference → Option Symbol
  | .resolved symbol => some symbol
  | .pending _ => none

def isPending : Reference → Bool
  | .resolved _ => false
  | .pending _ => true

/-- The full name once looked up, the name as written before. -/
def name : Reference → String
  | .resolved symbol => symbol.name
  | .pending reference => reference.name

end Reference

/-- A type and its number of array dimensions. -/
structure TypeSpec where
  reference : Reference
  dims : UInt8
deriving DecidableEq, Repr

namespace TypeSpec

/-- The built-in type of that name, no array. -/
def primitive (name : String) : TypeSpec := ⟨.resolved (.primitive name), 0⟩

def void : TypeSpec := primitive "void"

def object : TypeSpec := primitive "obj"

/-- The type's name with a bracket pair for each dimension. -/
def display (spec : TypeSpec) : String :=
  spec.reference.name ++ String.join (List.replicate spec.dims.toNat "[]")

end TypeSpec

end StackAsm
