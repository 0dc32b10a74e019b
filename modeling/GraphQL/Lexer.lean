import GraphQL.Lexeme.Scan
import GraphQL.Lexeme.Trivia
import GraphQL.LineSink

/-!
# The lexer

A lexer is a place in a source text, counted in bytes, and a line sink that has been told of every
line start up to there. Reading skips trivia and takes one lexeme. At the end of the text it
answers with an empty token at the end, as often as it is asked.
-/

namespace GraphQL

/-- A place in a source text, with the line sink filled on the way there. -/
structure Lexer (σ : Type) where
  /-- The characters not read yet. -/
  rest : List Char
  /-- How many bytes have been read. -/
  offset : Nat := 0
  lines : σ
  /-- The iterator has answered with the end of the text. -/
  finished : Bool := false
  deriving Repr

namespace Lexer

variable {σ : Type} [LineSink σ]

/-- A lexer at the start of the text. -/
def ofSource (source : String) (lines : σ) : Lexer σ := { rest := source.toList, lines := lines }

/-- Counts one character and reports the line start behind a newline. -/
def step (l : Lexer σ) (c : Char) : Lexer σ :=
  let offset := l.offset + c.utf8Size
  { l with
    offset := offset
    lines := if c = '\n' then LineSink.addLine l.lines offset else l.lines }

/-- Moves over the characters `read`, behind which `rest` follows. -/
def advance (l : Lexer σ) (read rest : List Char) : Lexer σ :=
  { read.foldl step l with rest := rest }

/-- Reads one token. -/
def read (l : Lexer σ) : SpannedToken × Lexer σ :=
  let (trivia, rest) := Trivia.span false l.rest
  let l := l.advance trivia rest
  match rest with
  | [] => (⟨.eof, l.offset, l.offset⟩, l)
  | c :: cs =>
    let x := Lexeme.scan c cs
    let behind := l.advance x.raw x.rest
    (⟨⟨x.kind, String.ofList x.text⟩, l.offset, behind.offset⟩, behind)

/-- The iterator over the tokens of a text: it ends behind the first end-of-text token. -/
def next (l : Lexer σ) : Option SpannedToken × Lexer σ :=
  if l.finished then (none, l)
  else
    let (t, l) := l.read
    (some t, { l with finished := l.finished || t.token.kind = .eof })

/-- The first `count` answers of the iterator, or all of them if it ends earlier. -/
def takeNext : Nat → Lexer σ → List SpannedToken × Lexer σ
  | 0, l => ([], l)
  | count + 1, l =>
    match l.next with
    | (none, l) => ([], l)
    | (some t, l) =>
      let (ts, l) := takeNext count l
      (t :: ts, l)

/-- All tokens that the iterator has still to give, and the lexer behind them. Every token but
the last takes a character, which bounds their number. -/
def drain (l : Lexer σ) : List SpannedToken × Lexer σ := takeNext (l.rest.length + 1) l

end Lexer

end GraphQL
