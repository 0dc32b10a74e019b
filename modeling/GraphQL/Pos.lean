/-!
# Positions

Every file of a set owns a range of one shared space of positions, so one number says both which
file is meant and where in it. `Pos` is such a number. Zero belongs to no file and stands for "no
position". A `Position` is what a `Pos` resolves to: a file name, an offset in bytes, and the line
and column a reader would count.
-/

namespace GraphQL

/-- A place in the space shared by all files of a set. -/
structure Pos where
  raw : Nat
  deriving DecidableEq, Repr, Inhabited

namespace Pos

/-- The position that belongs to no file. -/
def none : Pos := ⟨0⟩

/-- Any position but `none` may belong to a file. -/
def isValid (p : Pos) : Bool := p.raw ≠ 0

/-- The position `n` bytes further on. -/
def advance (p : Pos) (n : Nat) : Pos := ⟨p.raw + n⟩

@[simp] theorem isValid_none : Pos.none.isValid = false := rfl

@[simp] theorem raw_advance (p : Pos) (n : Nat) : (p.advance n).raw = p.raw + n := rfl

end Pos

/-- A resolved place: `offset` counts bytes from zero, `line` and `column` count from one, and
columns count bytes as well. Line zero marks a place that is not in any text. -/
structure Position where
  fileName : String := ""
  offset : Nat := 0
  line : Nat := 0
  column : Nat := 0
  deriving DecidableEq, Repr, Inhabited

namespace Position

/-- A position is valid when it names an actual line. -/
def isValid (p : Position) : Bool := p.line > 0

/-- The text of a position in messages. The file name is left out when it is empty, line and
column when they are not valid, and a dash stands for a position with neither. -/
def display (p : Position) : String :=
  match p.fileName.isEmpty, p.isValid with
  | false, true => s!"{p.fileName}:{p.line}:{p.column}"
  | true, true => s!"{p.line}:{p.column}"
  | false, false => p.fileName
  | true, false => "-"

end Position

end GraphQL
