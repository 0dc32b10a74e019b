import GraphQL.Token

/-!
# Lexemes

A lexeme is the piece of input that one token is made of: the characters it spans, the text that
the token gets from them, and what follows. Reading a lexeme never fails. Where the input breaks
off in the middle of one, or goes on with a character that cannot continue it, the lexeme is
malformed: it also spans the offending character, and its text shows that character, or U+FFFD
where the input ends.
-/

namespace GraphQL

/-- One token's worth of input. -/
structure Lexeme where
  kind : TokenKind
  /-- The text of the token. -/
  text : List Char
  /-- The characters that the token spans. -/
  raw : List Char
  /-- The input behind them. -/
  rest : List Char
  deriving DecidableEq, Repr, Inhabited

namespace Lexeme

/-- Shown in a malformed token where the input ends in the middle of it. -/
def endMarker : Char := '\uFFFD'

/-- A malformed lexeme that has read `raw`, shown as `text`, when `input` comes next. -/
def malformed (text raw : List Char) : List Char → Lexeme
  | [] => ⟨.illegal, text ++ [endMarker], raw, []⟩
  | c :: rest => ⟨.illegal, text ++ [c], raw ++ [c], rest⟩

/-- The lexeme with `read` in front of what it spans and `shown` in front of its text. -/
def behind (read shown : List Char) (x : Lexeme) : Lexeme :=
  { x with raw := read ++ x.raw, text := shown ++ x.text }

/-- A malformed lexeme spans what was read and at most one more character. -/
theorem raw_append_rest_malformed (text raw input : List Char) :
    (malformed text raw input).raw ++ (malformed text raw input).rest = raw ++ input := by
  cases input <;> simp [malformed]

theorem raw_append_rest_behind (read shown : List Char) (x : Lexeme) :
    (x.behind read shown).raw ++ (x.behind read shown).rest = read ++ (x.raw ++ x.rest) := by
  simp [behind]

end Lexeme

end GraphQL
