import GraphQL.Lexeme.Number
import GraphQL.Lexeme.StringLiteral

/-!
# Scanning a lexeme

The first character that is not trivia decides which kind of lexeme the input starts with: a
string, a number, a name, an ellipsis, or a punctuator of one character. Any other character is a
malformed token of its own.
-/

namespace GraphQL.Lexeme

/-- A letter that a name may start with. -/
def isNameStart (c : Char) : Bool :=
  ('a' ≤ c && c ≤ 'z') || ('A' ≤ c && c ≤ 'Z') || c = '_'

/-- A character that a name may go on with. -/
def isNamePart (c : Char) : Bool := isNameStart c || Number.isDigit c

/-- The longest name that the input starts with. -/
def scanName (input : List Char) : Lexeme :=
  let name := input.takeWhile isNamePart
  ⟨.name, name, name, input.dropWhile isNamePart⟩

/-- The lexeme of an input whose first character, a point, has been taken off. -/
def scanSpread : List Char → Lexeme
  | '.' :: '.' :: rest => ⟨.spread, ['.', '.', '.'], ['.', '.', '.'], rest⟩
  | '.' :: rest => .malformed ['.', '.'] ['.', '.'] rest
  | rest => .malformed ['.'] ['.'] rest

/-- The lexeme of an input that starts with the character `c`, which is no trivia. -/
def scan (c : Char) (cs : List Char) : Lexeme :=
  if c = '.' then scanSpread cs
  else if c = '\"' then StringLiteral.scan cs
  else if c = '-' || Number.isDigit c then Number.scan (c :: cs)
  else if isNameStart c then scanName (c :: cs)
  else ⟨(TokenKind.ofChar? c).getD .illegal, [c], [c], cs⟩

/-- Scanning loses nothing. -/
theorem scan_append (c : Char) (cs : List Char) :
    (scan c cs).raw ++ (scan c cs).rest = c :: cs := by
  have number : (Number.scan (c :: cs)).raw ++ (Number.scan (c :: cs)).rest = c :: cs := by
    have h := Number.run_append .start (c :: cs)
    simp only [Number.scan]
    repeat' split
    all_goals simp_all [raw_append_rest_malformed]
  have spread : (scanSpread cs).raw ++ (scanSpread cs).rest = '.' :: cs := by
    simp only [scanSpread]
    split <;> simp [raw_append_rest_malformed]
  unfold scan
  repeat' split
  all_goals
    simp_all [StringLiteral.scan, raw_append_rest_behind, StringLiteral.scanFrom_append, scanName]

end GraphQL.Lexeme
