import GraphQL.Lexeme.Basic
import GraphQL.Lexeme.Trivia

/-!
# Strings

A string runs from one double quote to the next. Between them a character stands for itself,
control characters other than tab excepted, or an escape stands for a character: a backslash and
one of eight letters, or `\u` and four hexadecimal digits. A code point that is no character (a
surrogate) decodes to U+FFFD.

The text of a string token is the decoded contents. A malformed one shows the opening quote, the
contents decoded so far, and the character at which it broke. When it broke inside a unicode
escape, the `\u` and the digits read so far come in between; the backslash of any other bad escape
is not shown.
-/

namespace GraphQL.StringLiteral

/-- Where in the contents of a string the reader is. -/
inductive State where
  | plain
  /-- Behind a backslash. -/
  | escape
  /-- Behind `\u` and the given digits. -/
  | unicode (digits : List Char)
  deriving DecidableEq, Repr, Inhabited

/-- The character that a backslash and the given letter stand for. -/
def unescape? : Char → Option Char
  | '\"' => some '\"'
  | '\\' => some '\\'
  | '/' => some '/'
  | 'b' => some '\x08'
  | 'f' => some '\x0c'
  | 'n' => some '\n'
  | 'r' => some '\r'
  | 't' => some '\t'
  | _ => none

/-- The value of a hexadecimal digit of either case. -/
def hexValue? (c : Char) : Option Nat :=
  if '0' ≤ c && c ≤ '9' then some (c.toNat - '0'.toNat)
  else if 'a' ≤ c && c ≤ 'f' then some (c.toNat - 'a'.toNat + 10)
  else if 'A' ≤ c && c ≤ 'F' then some (c.toNat - 'A'.toNat + 10)
  else none

/-- The number that hexadecimal digits denote, the first one being the most significant. -/
def hexNumber (digits : List Char) : Nat :=
  digits.foldl (fun n c => 16 * n + (hexValue? c).getD 0) 0

/-- The character with the given code point, or U+FFFD if there is none. -/
def ofCodePoint (n : Nat) : Char := if n.isValidChar then Char.ofNat n else '\uFFFD'

/-- The lexeme that the contents of a string continue, without the opening quote in its text if
the string is well formed and with it if not. -/
def scanFrom : State → List Char → Lexeme
  | .plain, [] => .malformed [] [] []
  | .plain, c :: cs =>
    if c = '\"' then ⟨.string, [], [c], cs⟩
    else if c = '\\' then (scanFrom .escape cs).behind [c] []
    else if Trivia.isControl c then .malformed [] [] (c :: cs)
    else (scanFrom .plain cs).behind [c] [c]
  | .escape, [] => .malformed [] [] []
  | .escape, c :: cs =>
    match unescape? c with
    | some d => (scanFrom .plain cs).behind [c] [d]
    | none =>
      if c = 'u' then (scanFrom (.unicode []) cs).behind [c] []
      else .malformed [] [] (c :: cs)
  | .unicode digits, [] => .malformed ('\\' :: 'u' :: digits) [] []
  | .unicode digits, c :: cs =>
    if (hexValue? c).isSome then
      if digits.length = 3 then
        (scanFrom .plain cs).behind [c] [ofCodePoint (hexNumber (digits ++ [c]))]
      else (scanFrom (.unicode (digits ++ [c])) cs).behind [c] []
    else .malformed ('\\' :: 'u' :: digits) [] (c :: cs)

/-- The lexeme of an input whose first character, the opening quote, has been taken off. -/
def scan (contents : List Char) : Lexeme :=
  let x := scanFrom .plain contents
  x.behind ['\"'] (if x.kind = .string then [] else ['\"'])

/-- Scanning loses nothing. -/
theorem scanFrom_append (s : State) (cs : List Char) :
    (scanFrom s cs).raw ++ (scanFrom s cs).rest = cs := by
  induction cs generalizing s with
  | nil => cases s <;> simp [scanFrom, Lexeme.malformed]
  | cons c cs ih =>
    cases s <;> simp only [scanFrom] <;> repeat' split
    all_goals
      simp [Lexeme.raw_append_rest_behind, Lexeme.raw_append_rest_malformed, ih]

end GraphQL.StringLiteral
