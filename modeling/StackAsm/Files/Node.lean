/-
Files and directories, each with its name and time; a directory holds
its children in the order of their names. What lies inside a directory
is named by the way that leads to it, name by name.
-/

namespace StackAsm

inductive FileNode where
  | file (name : String) (bytes : List UInt8) (time : Int)
  | directory (name : String) (children : List FileNode) (time : Int)
deriving Repr, Inhabited

namespace FileNode

def name : FileNode → String
  | .file name _ _ | .directory name _ _ => name

def time : FileNode → Int
  | .file _ _ time | .directory _ _ time => time

def isDirectory : FileNode → Bool
  | .file .. => false
  | .directory .. => true

/-- What is in a directory; nothing is in a file. -/
def children : FileNode → List FileNode
  | .file .. => []
  | .directory _ children _ => children

def child? (node : FileNode) (name : String) : Option FileNode :=
  node.children.find? (·.name == name)

-- ==== ways

/-- What a way leads to. -/
def at? : FileNode → List String → Option FileNode
  | node, [] => some node
  | node, name :: rest => (node.child? name).bind (·.at? rest)

mutual

/-- The ways to everything in a directory: a directory comes before its
contents, and names are in order. -/
def ways : FileNode → List (List String)
  | .file .. => []
  | .directory _ children _ => waysIn children

def waysIn : List FileNode → List (List String)
  | [] => []
  | node :: rest => [node.name] :: node.ways.map (node.name :: ·) ++ waysIn rest

end

theorem mem_waysIn_of_child {nodes : List FileNode} {node : FileNode} (inside : node ∈ nodes)
    {way : List String} (below : way = [] ∨ way ∈ node.ways) : node.name :: way ∈ waysIn nodes := by
  induction nodes with
  | nil => cases inside
  | cons first rest ih =>
    rw [waysIn, List.cons_append, List.mem_cons, List.mem_append, List.mem_map]
    rcases List.mem_cons.1 inside with same | later
    · subst same
      rcases below with here | deeper
      · exact Or.inl (by rw [here])
      · exact Or.inr (Or.inl ⟨way, deeper, rfl⟩)
    · exact Or.inr (Or.inr (ih later))

/-- A way that leads somewhere is the empty one or among the ways. -/
theorem mem_ways_of_at? {node found : FileNode} {way : List String}
    (leads : node.at? way = some found) : way = [] ∨ way ∈ node.ways := by
  induction way generalizing node with
  | nil => exact Or.inl rfl
  | cons name rest ih =>
    obtain ⟨child, isChild, deeper⟩ := Option.bind_eq_some_iff.1 leads
    have inside := List.mem_of_find?_eq_some isChild
    have named : child.name = name := by simpa using List.find?_some isChild
    refine Or.inr ?_
    cases node with
    | file => cases inside
    | directory own children time =>
      rw [ways, ← named]
      exact mem_waysIn_of_child inside (ih deeper)

-- ==== changing

def setTime (time : Int) : FileNode → FileNode
  | .file name bytes _ => .file name bytes time
  | .directory name children _ => .directory name children time

/-- Put a node among others, in the order of names and in the place of
one that has its name. -/
def place (fresh : FileNode) : List FileNode → List FileNode
  | [] => [fresh]
  | node :: rest =>
    if node.name < fresh.name then node :: fresh.place rest
    else if node.name = fresh.name then fresh :: rest
    else fresh :: node :: rest

/-- Put a node into a directory; one that is new there dates the
directory. -/
def add (fresh : FileNode) : FileNode → FileNode
  | .file name bytes time => .file name bytes time
  | .directory name children time =>
    let known := children.any (·.name == fresh.name)
    .directory name (fresh.place children) (if known then time else fresh.time)

/-- Take a child away. -/
def drop (name : String) : FileNode → FileNode
  | .file own bytes time => .file own bytes time
  | .directory own children time => .directory own (children.filter (·.name != name)) time

/-- Change what a way leads to. -/
def changeAt (change : FileNode → FileNode) : List String → FileNode → FileNode
  | [], node => change node
  | _ :: _, .file name bytes time => .file name bytes time
  | name :: rest, .directory own children time =>
    .directory own
      (children.map fun node => if node.name = name then changeAt change rest node else node) time

end FileNode

end StackAsm
