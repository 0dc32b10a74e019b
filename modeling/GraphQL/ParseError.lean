import GraphQL.Pos

/-!
# Parse errors

A parse ends at the first token that does not fit. The error says where that token is and either
what would have fitted and what was found, or that the constructs around it are nested too
deeply.
-/

namespace GraphQL

/-- Why a text was rejected. -/
inductive ParseError where
  /-- The token at the position is not one that was expected. -/
  | unexpectedToken (position : Position) (expected found : String)
  /-- The construct at the position would be nested more than `limit` deep. -/
  | nestingTooDeep (position : Position) (limit : Nat)
  deriving DecidableEq, Repr, Inhabited

namespace ParseError

/-- Where the parse stopped. -/
def position : ParseError → Position
  | unexpectedToken p _ _ => p
  | nestingTooDeep p _ => p

/-- The text of the error, the position in front. -/
def message : ParseError → String
  | unexpectedToken p expected found => s!"{p.display}: expecting {expected}, found '{found}'"
  | nestingTooDeep p limit => s!"{p.display}: nesting too deep (limit is {limit})"

end ParseError

end GraphQL
