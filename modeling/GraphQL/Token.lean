import GraphQL.Keyword

/-!
# Tokens

A token is a lexical class and a text. Names, numbers and punctuators keep their spelling, a
string keeps its decoded contents, and a malformed piece of input is a token too, of class
`illegal`, so that reading tokens never fails.
-/

namespace GraphQL

/-- The lexical classes. -/
inductive TokenKind where
  | illegal | eof
  | bang | dollar | parenOpen | parenClose | spread | colon | equals | atSign | bracketOpen
  | bracketClose | braceOpen | pipe | braceClose
  | name | int | float | string
  deriving DecidableEq, Repr, Inhabited

namespace TokenKind

/-- The spelling of a punctuator; the other classes have none. -/
def punctuator? : TokenKind → Option String
  | bang => some "!"
  | dollar => some "$"
  | parenOpen => some "("
  | parenClose => some ")"
  | spread => some "..."
  | colon => some ":"
  | equals => some "="
  | atSign => some "@"
  | bracketOpen => some "["
  | bracketClose => some "]"
  | braceOpen => some "\x7b"
  | pipe => some "|"
  | braceClose => some "\x7d"
  | illegal | eof | name | int | float | string => none

/-- The class of a punctuator of one character. -/
def ofChar? : Char → Option TokenKind
  | '!' => some bang
  | '$' => some dollar
  | '(' => some parenOpen
  | ')' => some parenClose
  | ':' => some colon
  | '=' => some equals
  | '@' => some atSign
  | '[' => some bracketOpen
  | ']' => some bracketClose
  | '\x7b' => some braceOpen
  | '|' => some pipe
  | '\x7d' => some braceClose
  | _ => none

/-- The class in messages: a punctuator by its spelling, any other class by its name in capitals. -/
def display : TokenKind → String
  | illegal => "ILLEGAL"
  | eof => "EOF"
  | name => "NAME"
  | int => "INT"
  | float => "FLOAT"
  | string => "STRING"
  | kind => kind.punctuator?.getD ""

end TokenKind

/-- A lexical unit. -/
structure Token where
  kind : TokenKind
  text : String
  deriving DecidableEq, Repr, Inhabited

namespace Token

/-- The end of the input, which has no text. -/
def eof : Token := ⟨.eof, ""⟩

/-- The reserved word that a name spells. -/
def keyword? (t : Token) : Option Keyword :=
  if t.kind = .name then Keyword.lookup? t.text else none

/-- The token is a name spelled exactly like the keyword. -/
def isKeyword (t : Token) (k : Keyword) : Bool := t.kind = .name && t.text = k.spelling

/-- The kind of operation that the token starts. -/
def operation? (t : Token) : Option OperationKind := t.keyword?.bind OperationKind.ofKeyword?

/-- What a message says was found. -/
def describe (t : Token) : String := if t.kind = .eof then "EOF" else t.text

end Token

/-- A token and the bytes it occupies, from `start` up to but not including `stop`. -/
structure SpannedToken where
  token : Token
  start : Nat
  stop : Nat
  deriving DecidableEq, Repr, Inhabited

end GraphQL
