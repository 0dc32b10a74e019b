import GraphQL.File

/-!
# Sets of files

A set hands out the space of positions: each new file takes the positions that follow those of the
file before it, one more than its size. Files are never removed, so a position keeps its meaning
for as long as the set lives.
-/

namespace GraphQL

/-- The files registered so far and the first position that none of them owns. -/
structure FileSet where
  base : Nat := 1
  files : Array File := #[]
  deriving DecidableEq, Repr, Inhabited

namespace FileSet

/-- The largest number that a position may have. -/
def maxPos : Nat := 0xFFFFFFFFFFFFFFFF

/-- Registers a file of `size` bytes behind all others, unless the space of positions is used up.
Gives the file along with the set that it belongs to. -/
def addFile (s : FileSet) (name : String) (size : Nat) : Except Violation (File × FileSet) :=
  if s.base + size + 1 ≤ maxPos then
    let f : File := { name := name, base := s.base, size := size }
    .ok (f, { base := s.base + size + 1, files := s.files.push f })
  else .error (.positionOverflow name)

/-- Changes the file registered last. -/
def modifyLast (s : FileSet) (f : File → File) : FileSet :=
  { s with files := s.files.modify (s.files.size - 1) f }

/-- The file that owns the position: the last one whose range starts at or before it, if the
position is inside that range. -/
def file? (s : FileSet) (p : Pos) : Option File :=
  if p.isValid then
    match s.files.countP (·.base ≤ p.raw) with
    | 0 => none
    | n + 1 => s.files[n]?.filter (·.contains p)
  else none

/-- Resolves a position through the file that owns it. -/
def position? (s : FileSet) (p : Pos) : Option Position :=
  (s.file? p).bind fun f => (f.position p).toOption

end FileSet

end GraphQL
