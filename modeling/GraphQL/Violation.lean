import GraphQL.Text.Quoted

/-!
# Broken promises

Some operations are only meant for arguments of a certain range: a file accepts offsets up to its
size, a token stream looks a fixed number of tokens ahead. A call outside that range changes
nothing and answers with the promise that the caller broke. None of these is ever the outcome of
parsing a text that fits into the space of positions.
-/

namespace GraphQL

/-- A promise that the caller of an operation did not keep. -/
inductive Violation where
  /-- The file `name` does not fit into what is left of the space of positions. -/
  | positionOverflow (name : String)
  /-- The file ends before the offset. -/
  | offsetOutOfRange (offset : Nat) (name : String) (size : Nat)
  /-- The position belongs to another file, or to none. -/
  | posOutOfRange (pos : Nat) (name : String) (base size : Nat)
  /-- The stream holds back fewer than `count` tokens. -/
  | lookaheadTooFar (count capacity : Nat)
  /-- A bracketed construct was left more often than it was entered. -/
  | nestingUnbalanced
  /-- A parse took more steps than its text has characters. -/
  | stepsExhausted
  deriving DecidableEq, Repr, Inhabited

/-- What is reported about a broken promise. -/
def Violation.message : Violation → String
  | .positionOverflow name => s!"position space overflow registering {Text.quoted name}"
  | .offsetOutOfRange offset name size =>
    s!"offset {offset} out of range for file {Text.quoted name} of size {size}"
  | .posOutOfRange pos name base size =>
    s!"pos {pos} out of range for file {Text.quoted name} (base {base}, size {size})"
  | .lookaheadTooFar count capacity =>
    s!"lookahead of {count} exceeds the stream's capacity of {capacity}"
  | .nestingUnbalanced => "nesting depth is already zero"
  | .stepsExhausted => "the parse does not end"

end GraphQL
