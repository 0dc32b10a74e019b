import GraphQL.FileTree.Listing

/-!
# File systems

All that loading asks of a file system is where a path leads: to a file, and then what reading it
gives, or elsewhere, and then what a listing of the path comes by. A file tree is a file system
that is written out. Others may differ from it, for instance in files that exist and cannot be
read.
-/

namespace GraphQL

/-- What a path leads to. -/
inductive FileSystem.Target where
  /-- A file, with what reading it gives. -/
  | file (contents : Except FileTree.PathError ByteArray)
  /-- No file: a directory or nothing at all, with the listing of the path. -/
  | other (listing : FileTree.Listing)
  deriving Inhabited

/-- Where every path leads. -/
structure FileSystem where
  target : String → FileSystem.Target
  deriving Inhabited

namespace FileTree

/-- Where a path leads in a file tree. A file that can be reached can be read. -/
def target (t : FileTree) (path : String) : FileSystem.Target :=
  match t.read path with
  | .ok bytes => .file (.ok bytes)
  | .error _ => .other (t.listing path)

/-- The file system that consists of a tree. -/
def fileSystem (t : FileTree) : FileSystem := ⟨t.target⟩

instance : Coe FileTree FileSystem := ⟨fileSystem⟩

end FileTree

end GraphQL
