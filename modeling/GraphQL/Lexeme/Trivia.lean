/-!
# Trivia

What may stand between two tokens without meaning anything: the byte order mark, blanks, line
ends, commas, and comments. A comment runs from a number sign to just before the first control
character other than tab, so that the line end behind it is trivia in its own right.
-/

namespace GraphQL.Trivia

/-- Control characters, tab excepted, end a comment and may not stand in a string. -/
def isControl (c : Char) : Bool := c.toNat < 0x20 && c ≠ '\t'

/-- The characters that mean nothing between tokens. -/
def isBlank (c : Char) : Bool :=
  c = '\uFEFF' || c = '\t' || c = ' ' || c = '\r' || c = '\n' || c = ','

/-- Splits the input into the trivia at its front and the rest. `inComment` says whether the
input starts inside a comment. -/
def span (inComment : Bool) : List Char → List Char × List Char
  | [] => ([], [])
  | c :: cs =>
    if inComment && !isControl c then
      let (skipped, rest) := span true cs
      (c :: skipped, rest)
    else if isBlank c then
      let (skipped, rest) := span false cs
      (c :: skipped, rest)
    else if c = '#' then
      let (skipped, rest) := span true cs
      (c :: skipped, rest)
    else ([], c :: cs)

/-- The split loses nothing. -/
theorem span_append (inComment : Bool) (cs : List Char) :
    (span inComment cs).1 ++ (span inComment cs).2 = cs := by
  induction cs generalizing inComment with
  | nil => rfl
  | cons c cs ih =>
    simp only [span]
    repeat' split
    all_goals simp [ih]

end GraphQL.Trivia
