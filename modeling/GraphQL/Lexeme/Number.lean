import GraphQL.Lexeme.Basic

/-!
# Numbers

A number is an optional minus, an integer part without superfluous zeros, an optional fraction
and an optional exponent. The automaton below accepts exactly these texts, and from each of its
states an accepting one can be reached. So the characters it takes are the longest part of the
input that some number starts with, and the lexeme is a number if the automaton accepts there. A
zero may not be followed by another digit.
-/

namespace GraphQL.Number

/-- How far into a number the automaton is. -/
inductive State where
  | start
  /-- Behind the minus. -/
  | minus
  /-- Behind an integer part that is a zero. -/
  | zero
  /-- In any other integer part. -/
  | integer
  /-- Behind the point. -/
  | point
  | fraction
  /-- Behind the letter of the exponent. -/
  | mark
  /-- Behind the sign of the exponent. -/
  | sign
  | exponent
  deriving DecidableEq, Repr, Inhabited

/-- A decimal digit. -/
def isDigit (c : Char) : Bool := '0' ≤ c && c ≤ '9'

/-- The letter that introduces an exponent. -/
def isMark (c : Char) : Bool := c = 'e' || c = 'E'

namespace State

/-- The state behind the character, if the number can go on with it. -/
def next? (s : State) (c : Char) : Option State :=
  match s with
  | start =>
    if c = '-' then some minus
    else if c = '0' then some zero
    else if isDigit c then some integer
    else none
  | minus => if c = '0' then some zero else if isDigit c then some integer else none
  | zero => if c = '.' then some point else if isMark c then some mark else none
  | integer =>
    if isDigit c then some integer
    else if c = '.' then some point
    else if isMark c then some mark
    else none
  | point => if isDigit c then some fraction else none
  | fraction => if isDigit c then some fraction else if isMark c then some mark else none
  | mark =>
    if c = '+' || c = '-' then some sign else if isDigit c then some exponent else none
  | sign => if isDigit c then some exponent else none
  | exponent => if isDigit c then some exponent else none

/-- The class of the number that ends in this state, if one does. -/
def kind? : State → Option TokenKind
  | zero | integer => some .int
  | fraction | exponent => some .float
  | start | minus | point | mark | sign => none

end State

/-- Runs the automaton as far as it goes: the characters it took, the state it stopped in, and
the rest of the input. -/
def run (s : State) : List Char → List Char × State × List Char
  | [] => ([], s, [])
  | c :: cs =>
    match s.next? c with
    | some t =>
      let (taken, stopped, rest) := run t cs
      (c :: taken, stopped, rest)
    | none => ([], s, c :: cs)

/-- The run loses nothing. -/
theorem run_append (s : State) (cs : List Char) : (run s cs).1 ++ (run s cs).2.2 = cs := by
  induction cs generalizing s with
  | nil => rfl
  | cons c cs ih => simp only [run]; split <;> simp [ih]

/-- The lexeme of an input that starts with a minus or a digit. -/
def scan (input : List Char) : Lexeme :=
  let (taken, stopped, rest) := run .start input
  match stopped.kind? with
  | some kind =>
    if stopped = .zero && rest.head?.any isDigit then .malformed taken taken rest
    else ⟨kind, taken, taken, rest⟩
  | none => .malformed taken taken rest

end GraphQL.Number
