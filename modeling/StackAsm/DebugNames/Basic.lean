/-
Debug names: the names of locals and labels, for a container that was
written without them. They are kept by namespace, type and method.
-/
import StackAsm.Table
import StackAsm.Text.Dotted

namespace StackAsm

structure LocalName where
  name : String
  slot : UInt16
deriving DecidableEq, Repr

structure LabelName where
  name : String
  index : UInt16
  /-- Offset in the method's code, in bytes. -/
  offset : UInt32
deriving DecidableEq, Repr

structure MethodNames where
  name : String
  locals : List LocalName
  labels : List LabelName
deriving DecidableEq, Repr

structure TypeNames where
  name : String
  nested : List TypeNames := []
  methods : List MethodNames := []
deriving Repr, Inhabited

structure NamespaceNames where
  name : String
  types : List TypeNames
deriving Repr

/-- The debug names of a program. -/
structure DebugNames where
  namespaces : List NamespaceNames := []
deriving Repr

-- ==== equality

mutual

/-- Names of types are compared part by part. -/
def TypeNames.decEq : (a b : TypeNames) → Decidable (a = b)
  | ⟨n, ts, ms⟩, ⟨n', ts', ms'⟩ =>
    match TypeNames.decEqAll ts ts' with
    | isFalse h => isFalse fun e => h (by injection e)
    | isTrue h =>
      if h' : n = n' ∧ ms = ms' then isTrue (by obtain ⟨rfl, rfl⟩ := h'; rw [h])
      else isFalse fun e => h' (by injection e; simp [*])

def TypeNames.decEqAll : (a b : List TypeNames) → Decidable (a = b)
  | [], [] => isTrue rfl
  | [], _ :: _ => isFalse (by simp)
  | _ :: _, [] => isFalse (by simp)
  | t :: ts, t' :: ts' =>
    match TypeNames.decEq t t', TypeNames.decEqAll ts ts' with
    | isTrue h, isTrue h' => isTrue (by rw [h, h'])
    | isFalse h, _ => isFalse fun e => h (by injection e)
    | _, isFalse h => isFalse fun e => h (by injection e)

end

instance : DecidableEq TypeNames := TypeNames.decEq

deriving instance DecidableEq for NamespaceNames

deriving instance DecidableEq for DebugNames

-- ==== lookup

namespace MethodNames

def localName? (names : MethodNames) (slot : UInt16) : Option String :=
  (names.locals.find? (·.slot == slot)).map (·.name)

def labelName? (names : MethodNames) (index : UInt16) : Option String :=
  (names.labels.find? (·.index == index)).map (·.name)

end MethodNames

/-- The names of a method's locals, by slot, and of its labels, by
index. -/
structure NameTables where
  locals : Table UInt16 String
  labels : Table UInt16 String

def MethodNames.tables (names : MethodNames) : NameTables where
  locals := .index (·.slot) (·.name) names.locals
  labels := .index (·.index) (·.name) names.labels

theorem MethodNames.get?_locals_tables (names : MethodNames) (slot : UInt16) :
    names.tables.locals.get? slot = names.localName? slot :=
  Table.get?_index ..

theorem MethodNames.get?_labels_tables (names : MethodNames) (index : UInt16) :
    names.tables.labels.get? index = names.labelName? index :=
  Table.get?_index ..

mutual

/-- Methods of a type and of the types nested in it, by full name. -/
def TypeNames.walk (outer : String) : TypeNames → List (String × MethodNames)
  | ⟨name, nested, methods⟩ =>
    let full := Text.join outer name
    methods.map (fun method => (Text.join full method.name, method)) ++ walkAll full nested

def TypeNames.walkAll (outer : String) : List TypeNames → List (String × MethodNames)
  | [] => []
  | type :: rest => TypeNames.walk outer type ++ walkAll outer rest

end

namespace DebugNames

/-- Every method by full name. -/
def methods (db : DebugNames) : List (String × MethodNames) :=
  db.namespaces.flatMap fun space => TypeNames.walkAll space.name space.types

/-- The last method of that full name. -/
def method? (db : DebugNames) (full : String) : Option MethodNames :=
  (db.methods.reverse.find? (·.1 == full)).map (·.2)

/-- What to know of each method, by full name. -/
def methodTable {α : Type} (db : DebugNames) (value : MethodNames → α) : Table String α :=
  .index (·.1) (fun entry => value entry.2) db.methods.reverse

theorem get?_methodTable {α : Type} (db : DebugNames) (value : MethodNames → α)
    (full : String) : (db.methodTable value).get? full = (db.method? full).map value := by
  rw [methodTable, Table.get?_index, method?, Option.map_map]
  rfl

end DebugNames

end StackAsm
