/-!
# Line sinks

A lexer reports the offset just past every newline that it reads, which is where the next line
starts. Whatever collects these offsets is a line sink. It may be told the same offset again, or
an earlier one, and keeps its line starts in increasing order all the same.
-/

namespace GraphQL

/-- Something that collects the line starts of a text. -/
class LineSink (σ : Type) where
  /-- Reports that a line starts at the offset. -/
  addLine : σ → Nat → σ

/-- A plain list of line starts, in the order they were reported. -/
structure LineLog where
  starts : Array Nat := #[]
  deriving DecidableEq, Repr, Inhabited

namespace LineLog

/-- Keeps the offset when it lies beyond every one before it. -/
def addLine (log : LineLog) (offset : Nat) : LineLog :=
  if log.starts.back?.all (· < offset) then ⟨log.starts.push offset⟩ else log

instance : LineSink LineLog := ⟨addLine⟩

end LineLog

end GraphQL
