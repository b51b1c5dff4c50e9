/-
Sources: where a build finds its text. Every file has one place, however
its path is spelled, and a set of sources has finitely many places. So a
walk along imports that visits each place once comes to an end.
-/
import StackAsm.Files.Tree
import StackAsm.Table

namespace StackAsm

structure SourceSet where
  /-- Where there may be something. -/
  places : List String
  /-- The place a path leads to. -/
  locate : String → Except FileFault { place : String // place ∈ places }
  load : String → Except FileFault String

/-- A place of one set of sources. -/
abbrev SourceSet.Place (sources : SourceSet) := { place : String // place ∈ sources.places }

-- ==== text sets

/-- Texts under folded paths; of several under one path the last
counts. -/
structure SourceTexts where
  /-- Folded paths with their texts; the first of a path counts. -/
  files : List (String × String)
  table : Table String String
  table_eq : table = .ofList files

namespace SourceTexts

def ofFiles (files : List (String × String)) : SourceTexts :=
  ⟨files.reverse.map fun file => (Path.fold file.1, file.2), _, rfl⟩

/-- The text under a folded path. -/
def text? (texts : SourceTexts) (place : String) : Option String := texts.table.get? place

theorem text?_eq (texts : SourceTexts) (place : String) :
    texts.text? place = texts.files.lookup place := by
  rw [text?, texts.table_eq, Table.get?_ofList]

theorem mem_of_text? {texts : SourceTexts} {place text : String}
    (found : texts.text? place = some text) : place ∈ texts.files.map Prod.fst := by
  rw [text?_eq, List.lookup_eq_some_iff] at found
  obtain ⟨front, back, split, _⟩ := found
  simp [split]

def locate (texts : SourceTexts) (path : String) :
    Except FileFault { place : String // place ∈ texts.files.map Prod.fst } :=
  match found : texts.text? (Path.fold path) with
  | some _ => .ok ⟨Path.fold path, mem_of_text? found⟩
  | none => .error (.unknownSource path)

def load (texts : SourceTexts) (path : String) : Except FileFault String :=
  match texts.text? (Path.fold path) with
  | some text => .ok text
  | none => .error (.unknownSource path)

def sources (texts : SourceTexts) : SourceSet where
  places := texts.files.map Prod.fst
  locate := texts.locate
  load := texts.load

end SourceTexts

-- ==== trees

namespace FileTree

def places (tree : FileTree) : List String := ([] :: tree.root.ways).map Place.path

theorem path_mem_places {tree : FileTree} {place : StackAsm.Place} {node : FileNode}
    (found : tree.node? place = some node) : place.path ∈ tree.places :=
  List.mem_map.2 ⟨place, List.mem_cons.2 (FileNode.mem_ways_of_at? found), rfl⟩

/-- The absolute path of what a path leads to. -/
def canonical (tree : FileTree) (path : String) :
    Except FileFault { place : String // place ∈ tree.places } := do
  let located ← tree.resolve path
  match found : tree.node? located.place with
  | some _ => .ok ⟨located.place.path, path_mem_places found⟩
  | none => .error .missing

def sources (tree : FileTree) : SourceSet where
  places := tree.places
  locate := tree.canonical
  load := tree.readText

end FileTree

end StackAsm
