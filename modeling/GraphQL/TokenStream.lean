import GraphQL.Lexer
import GraphQL.Violation

/-!
# Token streams

A token stream reads tokens from a lexer no earlier than they are looked at, and holds back those
that have been looked at but not consumed. It looks at most two tokens ahead. How far its lexer
has gone can be seen in the line sink, so looking further than needed would show.
-/

namespace GraphQL

/-- A lexer with the tokens that have been read from it but not consumed. -/
structure TokenStream (σ : Type) where
  lexer : Lexer σ
  buffer : List SpannedToken := []
  deriving Repr

namespace TokenStream

variable {σ : Type} [LineSink σ]

/-- How many tokens a stream can hold back. -/
def capacity : Nat := 2

/-- Reads one more token into the buffer. -/
def pull (s : TokenStream σ) : TokenStream σ :=
  let (t, lexer) := s.lexer.read
  { lexer := lexer, buffer := s.buffer ++ [t] }

/-- Reads until `count` tokens are held back. -/
def fill (s : TokenStream σ) (count : Nat) : TokenStream σ :=
  Nat.repeat pull (count - s.buffer.length) s

theorem length_buffer_pull (s : TokenStream σ) :
    s.pull.buffer.length = s.buffer.length + 1 := by
  simp [pull]

theorem length_buffer_fill (s : TokenStream σ) (count : Nat) :
    (s.fill count).buffer.length = max s.buffer.length count := by
  have h (k : Nat) : (Nat.repeat pull k s).buffer.length = s.buffer.length + k := by
    induction k with
    | zero => rfl
    | succ k ih => simp [Nat.repeat, length_buffer_pull, ih, Nat.add_assoc]
  rw [fill, h]
  omega

/-- Takes the next token off the stream. -/
def consume (s : TokenStream σ) : SpannedToken × TokenStream σ :=
  match s.buffer with
  | t :: buffer => (t, { s with buffer := buffer })
  | [] =>
    let (t, lexer) := s.lexer.read
    (t, { s with lexer := lexer })

/-- Looks at the token `n` places ahead, zero being the next one. -/
def peekNth (s : TokenStream σ) (n : Nat) : Except Violation (SpannedToken × TokenStream σ) :=
  if n < capacity then
    let filled := s.fill (n + 1)
    have h : n < filled.buffer.length := by simp only [filled, length_buffer_fill]; omega
    .ok (filled.buffer.get ⟨n, h⟩, filled)
  else .error (.lookaheadTooFar (n + 1) capacity)

/-- How many tokens are held back. -/
def buffered (s : TokenStream σ) : Nat := s.buffer.length

end TokenStream

end GraphQL
