import GraphQL.LineSink
import GraphQL.Pos
import GraphQL.Violation

/-!
# Files

A file is one text of a set: its name, its size in bytes, the first position it owns, and the
table of its line starts. It owns the positions from `base` to `base + size`, both included, so
that the end of the text has a position too. The table begins with the start of line one and
grows while a lexer reads the text; looking a position up needs only the lines read so far.
-/

namespace GraphQL

/-- A text registered in a set of files. -/
structure File where
  name : String
  base : Nat
  size : Nat
  /-- Offsets of the line starts known so far, in increasing order. -/
  lines : Array Nat := #[0]
  deriving DecidableEq, Repr, Inhabited

namespace File

/-- Accepts a line start that lies beyond the last one and inside the text. -/
def addLine (f : File) (offset : Nat) : File :=
  if f.lines.back?.getD 0 < offset ∧ offset < f.size then
    { f with lines := f.lines.push offset }
  else f

instance : LineSink File := ⟨addLine⟩

/-- Where line number `line`, counted from one, starts, if that line has been reached. -/
def lineStart? (f : File) (line : Nat) : Option Nat :=
  if line = 0 then none else f.lines[line - 1]?

/-- The position of an offset; the end of the text counts as inside. -/
def pos (f : File) (offset : Nat) : Except Violation Pos :=
  if offset ≤ f.size then .ok ⟨f.base + offset⟩
  else .error (.offsetOutOfRange offset f.name f.size)

/-- The file owns the position. -/
def contains (f : File) (p : Pos) : Bool := f.base ≤ p.raw && p.raw ≤ f.base + f.size

/-- The offset of a position that the file owns. -/
def offset (f : File) (p : Pos) : Except Violation Nat :=
  if f.contains p then .ok (p.raw - f.base)
  else .error (.posOutOfRange p.raw f.name f.base f.size)

/-- The number of the line that the offset is on: how many lines start at or before it. -/
def lineOf (f : File) (offset : Nat) : Nat := f.lines.countP (· ≤ offset)

/-- The name, line and column of an offset. -/
def locate (f : File) (offset : Nat) : Position :=
  { fileName := f.name
    offset := offset
    line := f.lineOf offset
    column := offset - (f.lineStart? (f.lineOf offset)).getD 0 + 1 }

/-- Resolves a position that the file owns. "No position" resolves to the invalid position. -/
def position (f : File) (p : Pos) : Except Violation Position :=
  if p.isValid then (f.offset p).map f.locate else .ok {}

end File

end GraphQL
