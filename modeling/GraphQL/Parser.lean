import GraphQL.File
import GraphQL.Grammar.Executable
import GraphQL.Grammar.TypeSystem
import GraphQL.ParseError
import GraphQL.TokenStream

/-!
# Running a grammar

A parser reads a token stream by a grammar and builds the parts of the construct. It ends at the
first token that does not fit. What it has done up to there, above all how far the lexer has gone
and which line starts the file has learnt, stays done.

The depth of nesting is counted on the way into and out of every construct that counts as a
level. It is checked before the first token of the construct is looked at, and a construct too
deep is reported there.

Each round of a repetition and each construct inside another of its rule takes a token, so
neither happens more often than the text has characters. That number is handed down as an upper
bound.
-/

namespace GraphQL

/-- The choices a caller has about a parse. -/
structure ParserOptions where
  /-- How deep selection sets, lists and objects may be nested, all taken together. -/
  maxDepth : Nat
  deriving DecidableEq, Repr

namespace ParserOptions

/-- The nesting depth allowed unless the caller says otherwise. -/
def defaultMaxDepth : Nat := 64

instance : Inhabited ParserOptions := ⟨⟨defaultMaxDepth⟩⟩

end ParserOptions

/-- Why a parser stops before its grammar is done. -/
inductive Halt where
  /-- The text does not fit the grammar. -/
  | rejected (e : ParseError)
  /-- The parser has broken a promise that it made. -/
  | broken (v : Violation)
  deriving DecidableEq, Repr, Inhabited

/-- What a parser changes while it runs. -/
structure ParserState where
  /-- The tokens to come, read from a text whose line starts go to its file. -/
  stream : TokenStream File
  /-- How many constructs that count as a level are open. -/
  depth : Nat := 0
  deriving Repr

/-- A step of a parse. What it has done before it stops is kept. -/
abbrev Parser (α : Type) := EStateM Halt ParserState α

namespace Parser

/-- Goes on with the result, unless the promise was broken. -/
def checked {α : Type} : Except Violation α → Parser α
  | .ok a => pure a
  | .error v => throw (.broken v)

/-- Looks at the token `n` places ahead. -/
def peek (n : Nat) : Parser SpannedToken := do
  let s ← get
  let (t, stream) ← checked (s.stream.peekNth n)
  set { s with stream := stream }
  return t

/-- Takes the next token. -/
def consume : Parser SpannedToken := do
  let s ← get
  let (t, stream) := s.stream.consume
  set { s with stream := stream }
  return t

/-- The position of an offset in the text that is parsed. -/
def posAt (offset : Nat) : Parser Pos := do
  checked ((← get).stream.lexer.lines.pos offset)

/-- The resolved position of an offset in the text that is parsed. -/
def positionAt (offset : Nat) : Parser Position := do
  let p ← posAt offset
  checked ((← get).stream.lexer.lines.position p)

/-- Stops because the next token is not what was expected. -/
def unexpected {α : Type} (expected : Token → String) : Parser α := do
  let t ← peek 0
  let position ← positionAt t.start
  throw (.rejected (.unexpectedToken position (expected t.token) t.token.describe))

/-- Takes a token that has to be as required. -/
def expect (t : Terminal) : Parser PlacedToken := do
  if t.accepts (← peek 0).token then
    let x ← consume
    return { token := x.token, pos := ← posAt x.start, stop := ← posAt x.stop }
  else
    unexpected t.expectation

/-- The tokens ahead pass. The second one is looked at only if the first one passes. -/
def ahead : Lookahead → Parser Bool
  | .next t => return t.accepts (← peek 0).token
  | .nextNot t => return !t.accepts (← peek 0).token
  | .nextTwo t u => do
    if t.accepts (← peek 0).token then
      return u.accepts (← peek 1).token
    else
      return false

/-- Goes one level down, unless that is deeper than allowed. -/
def enter (maxDepth : Nat) : Parser Unit := do
  let s ← get
  if s.depth < maxDepth then
    set { s with depth := s.depth + 1 }
  else
    let t ← peek 0
    throw (.rejected (.nestingTooDeep (← positionAt t.start) maxDepth))

/-- Comes one level up. -/
def leave : Parser Unit := do
  let s ← get
  match s.depth with
  | 0 => throw (.broken .nestingUnbalanced)
  | depth + 1 => set { s with depth := depth }

/-- Runs a parser one level down. The level is left however the parser ends. -/
def nested {α : Type} (maxDepth : Nat) (p : Parser α) : Parser α := do
  enter maxDepth
  let a ← tryCatch p fun e => do
    leave
    throw e
  leave
  return a

/-- Runs an item again for as long as the tokens ahead pass, at most `bound` times. -/
def repeatWhile (test : Lookahead) (item : Parser (List Tree)) : Nat → Parser (List Tree)
  | 0 => throw (.broken .stepsExhausted)
  | bound + 1 => do
    if ← ahead test then
      let first ← item
      let others ← repeatWhile test item bound
      return first ++ others
    else
      return []

/-- Reads what the grammar describes. `bound` is how often a repetition may go round, and `rule`
reads the constructs that contain themselves. -/
def ofGrammar (maxDepth bound : Nat) (rule : Rule → Parser (List Tree)) :
    Grammar → Parser (List Tree)
  | .done => return []
  | .token t => return [.token (← expect t)]
  | .separator t => do
    let _ ← expect t
    return []
  | .fail expected => unexpected fun _ => expected
  | .seq g h => do
    let first ← ofGrammar maxDepth bound rule g
    let second ← ofGrammar maxDepth bound rule h
    return first ++ second
  | .choice test g h => do
    if ← ahead test then ofGrammar maxDepth bound rule g else ofGrammar maxDepth bound rule h
  | .many test g => repeatWhile test (ofGrammar maxDepth bound rule g) bound
  | .node k g => return [.node k (← ofGrammar maxDepth bound rule g)]
  | .nested g => nested maxDepth (ofGrammar maxDepth bound rule g)
  | .call r => rule r

/-- Reads a construct that contains itself, with at most `levels` of them inside one another. -/
def ofRule (maxDepth bound : Nat) : Nat → Rule → Parser (List Tree)
  | 0, _ => throw (.broken .stepsExhausted)
  | levels + 1, r => ofGrammar maxDepth bound (ofRule maxDepth bound levels) (Grammar.ofRule r)

/-- Reads what the grammar describes from a text of `size` characters. -/
def run (maxDepth size : Nat) (g : Grammar) : Parser (List Tree) :=
  ofGrammar maxDepth (size + 1) (ofRule maxDepth (size + 1) (size + 1)) g

end Parser

end GraphQL
