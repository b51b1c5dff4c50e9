/-
The scope stack: namespace blocks that are open while a file is read,
with the imports and aliases they bring into view. Each open block
remembers what was in view before it, so closing it brings that back.

A snapshot of what is visible is kept and handed out again until the
stack changes.
-/
import StackAsm.Name.Reference
import StackAsm.Text.Dotted

namespace StackAsm

/-- Why a namespace cannot be entered. -/
inductive PathFault where
  | empty
  | emptySegment
deriving DecidableEq, Repr

namespace PathFault

def message : PathFault → String
  | .empty => "Namespace name cannot be empty"
  | .emptySegment => "Namespace name cannot contain empty segments"

/-- The segments of a namespace name, none of them empty. -/
def segments (name : String) : Except PathFault (List String) :=
  if name.isEmpty then .error .empty
  else
    let parts := Text.dottedParts name
    if parts.any String.isEmpty then .error .emptySegment else .ok parts

end PathFault

/-- What the open blocks have brought into view. -/
structure ScopeView where
  /-- Segments of the namespace path, innermost first. -/
  segments : List String := []
  /-- Imported namespaces, the last one first. -/
  imports : List String := []
  /-- Aliases and what they stand for, the last one first. -/
  aliases : List (String × String) := []
deriving DecidableEq, Repr

theorem length_noViews : 0 = ([] : List ScopeView).length := rfl

structure ScopeStack where
  view : ScopeView := {}
  /-- What was in view outside each open block, innermost first. -/
  outer : List ScopeView := []
  /-- How many blocks are open. -/
  depth : Nat := 0
  depth_eq : depth = outer.length := by exact length_noViews
  /-- The snapshot last handed out, while it is still good. -/
  kept : Option Scope := none
deriving DecidableEq, Repr

namespace ScopeStack

/-- Dotted path of the innermost namespace. -/
def path (stack : ScopeStack) : String := ".".intercalate stack.view.segments.reverse

/-- The full name of `name` declared here. -/
def qualify (stack : ScopeStack) (name : String) : String :=
  if stack.view.segments.isEmpty then name else stack.path ++ "." ++ name

-- ==== blocks

/-- Open a block in the namespace with those segments, innermost first. -/
def openBlock (stack : ScopeStack) (segments : List String) : ScopeStack where
  view := { stack.view with segments }
  outer := stack.view :: stack.outer
  depth := stack.depth + 1
  depth_eq := congrArg (· + 1) stack.depth_eq

/-- Enter a namespace below the current one. -/
def enter (stack : ScopeStack) (name : String) : Except PathFault ScopeStack :=
  (PathFault.segments name).map fun parts =>
    stack.openBlock (parts.reverse ++ stack.view.segments)

/-- Enter a namespace counted from the top. -/
def enterRooted (stack : ScopeStack) (name : String) : Except PathFault ScopeStack :=
  (PathFault.segments name).map fun parts => stack.openBlock parts.reverse

/-- Leave the innermost block, if one is open. -/
def leave? (stack : ScopeStack) : Option ScopeStack :=
  match h : stack.outer with
  | [] => none
  | view :: outer =>
    some { view, outer, depth := stack.depth - 1, depth_eq := by simp [stack.depth_eq, h] }

/-- Leave the innermost block; nothing happens outside every block. -/
def leave (stack : ScopeStack) : ScopeStack := stack.leave?.getD stack

-- ==== imports and aliases

/-- Bring a namespace into view; one already in view is not added. -/
def addImport (stack : ScopeStack) (path : String) : ScopeStack :=
  if stack.view.imports.contains path then stack
  else
    { stack with
      view := { stack.view with imports := path :: stack.view.imports }
      kept := none }

def addAlias (stack : ScopeStack) (name target : String) : ScopeStack :=
  { stack with
    view := { stack.view with aliases := (name, target) :: stack.view.aliases }
    kept := none }

-- ==== snapshots

/-- The kept snapshot, if it is one for `typePath`. -/
def kept? (stack : ScopeStack) (typePath : Option String) : Option Scope :=
  stack.kept.filter fun scope => scope.typePath == typePath

/-- What is visible inside `typePath`, computed afresh. -/
def visible (stack : ScopeStack) (typePath : Option String) : Scope :=
  { path := stack.path
    typePath
    imports := stack.view.imports
    aliases := stack.view.aliases }

/-- What is visible inside `typePath`; the snapshot is kept. -/
def snapshot (stack : ScopeStack) (typePath : Option String) : Scope × ScopeStack :=
  match stack.kept? typePath with
  | some scope => (scope, stack)
  | none =>
    let scope := stack.visible typePath
    (scope, { stack with kept := some scope })

end ScopeStack

end StackAsm
