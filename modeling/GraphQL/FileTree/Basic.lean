/-!
# File trees

A file tree is a directory and what lies below it: files with their bytes, directories, and
symbolic links with the path they point to. The tree is all there is: it is the current directory
and the root at once, so that relative and absolute paths start at the same place, and nothing
lies above it.

Every entry is filed under its location, the names on the way down from the root. Locations go
through directories only; a path, in contrast, may lead through links.
-/

namespace GraphQL

/-- What may lie at a location. -/
inductive FileTree.Entry where
  | file (bytes : ByteArray)
  | directory
  /-- A symbolic link to the path `target`, which starts at the link's own directory. -/
  | link (target : String)
  deriving Inhabited

/-- The entries below the root, each with its location. -/
structure FileTree where
  entries : List (List String × FileTree.Entry) := []
  deriving Inhabited

namespace FileTree

/-- What lies at a location. -/
def entryAt? (t : FileTree) (location : List String) : Option Entry :=
  if location = [] then some .directory
  else (t.entries.find? (·.1 = location)).map (·.2)

/-- There is a directory at the location. -/
def isDirectory (t : FileTree) (location : List String) : Bool :=
  match t.entryAt? location with
  | some .directory => true
  | _ => false

/-- Puts an entry at a location, in the place of what lies there. -/
def set (t : FileTree) (location : List String) (e : Entry) : FileTree :=
  ⟨t.entries.filter (·.1 ≠ location) ++ [(location, e)]⟩

/-- The last name of a location that lies directly below `parent`. -/
def nameBelow? (parent location : List String) : Option String :=
  location.getLast?.filter fun name => decide (location = parent ++ [name])

/-- The names of the entries of a directory in the order of their bytes, which is the order of
their characters. -/
def namesIn (t : FileTree) (location : List String) : List String :=
  (t.entries.filterMap (nameBelow? location ·.1)).mergeSort (· ≤ ·)

end FileTree

end GraphQL
