import GraphQL.Lexeme.Number

/-!
# Decimal numbers

The texts that denote a number in base ten, and the number that they denote. A text may have a
sign, a point with digits on at least one side of it, and an exponent. This is more than the
language lets a number literal be, because a literal may also be built by hand.
-/

namespace GraphQL

/-- The number `± significand · 10 ^ exponent`. -/
structure Decimal where
  negative : Bool
  significand : Nat
  exponent : Int
  deriving DecidableEq, Repr, Inhabited

namespace Decimal

/-- Takes the sign off a text. A minus makes the number negative. -/
def takeSign : List Char → Bool × List Char
  | '-' :: cs => (true, cs)
  | '+' :: cs => (false, cs)
  | cs => (false, cs)

/-- The number that a row of digits denotes. -/
def digitsValue (digits : List Char) : Nat :=
  digits.foldl (fun n c => 10 * n + (c.toNat - '0'.toNat)) 0

/-- The number that a text of at least one digit, and digits only, denotes. -/
def natural? (cs : List Char) : Option Nat :=
  if cs ≠ [] ∧ cs.all Number.isDigit then some (digitsValue cs) else none

/-- The number that a text of an optional sign and digits denotes. -/
def integer? (cs : List Char) : Option Int :=
  let (negative, digits) := takeSign cs
  (natural? digits).map fun n => if negative then -(n : Int) else n

/-- The exponent that follows the digits, zero if nothing does. -/
def exponent? : List Char → Option Int
  | [] => some 0
  | c :: cs => if Number.isMark c then integer? cs else none

/-- The point and the digits behind it, which may both be missing, and the rest of the text. -/
def takeFraction : List Char → List Char × List Char
  | '.' :: cs => (cs.takeWhile Number.isDigit, cs.dropWhile Number.isDigit)
  | cs => ([], cs)

/-- Reads a text that denotes a number in base ten. -/
def ofText? (cs : List Char) : Option Decimal :=
  let (negative, cs) := takeSign cs
  let whole := cs.takeWhile Number.isDigit
  let (fraction, rest) := takeFraction (cs.dropWhile Number.isDigit)
  if whole ++ fraction = [] then none
  else
    (exponent? rest).map fun e =>
      { negative := negative
        significand := digitsValue (whole ++ fraction)
        exponent := e - fraction.length }

end Decimal

end GraphQL
