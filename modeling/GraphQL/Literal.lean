import GraphQL.Decimal.Binary
import GraphQL.Token

/-!
# Literals

A literal value is a number or a string as the source has it. Its numeric value is worked out on
demand, since a number may be too large for the type that is asked for.
-/

namespace GraphQL

/-- The three kinds of literal. -/
inductive LiteralKind where
  | int | float | string
  deriving DecidableEq, Repr, Inhabited

/-- The lexical class of the literals of a kind. -/
def LiteralKind.tokenKind : LiteralKind → TokenKind
  | int => .int
  | float => .float
  | string => .string

/-- A literal and its text; that of a string is its decoded contents. -/
structure Literal where
  kind : LiteralKind
  text : String
  deriving DecidableEq, Repr, Inhabited

namespace Literal

/-- The literal that a token is. -/
def ofToken? (t : Token) : Option Literal :=
  match t.kind with
  | .int => some ⟨.int, t.text⟩
  | .float => some ⟨.float, t.text⟩
  | .string => some ⟨.string, t.text⟩
  | _ => none

/-- The value of an integer literal that fits into 64 bits with a sign. -/
def intValue? (x : Literal) : Option Int :=
  match x.kind with
  | .int =>
    (Decimal.integer? x.text.toList).filter fun n =>
      -0x8000000000000000 ≤ n && n ≤ 0x7FFFFFFFFFFFFFFF
  | .float | .string => none

/-- The doubles that have a name, which may be written in any case and with a sign. -/
def namedFloat? (text : List Char) : Option Float :=
  let (negative, name) := Decimal.takeSign text
  let magnitude : Option Float :=
    match String.ofList (name.map Char.toLower) with
    | "inf" | "infinity" => some (Float.ofBits (UInt64.ofNat Decimal.infinityBits))
    | "nan" => some (0.0 / 0.0)
    | _ => none
  magnitude.map fun x => if negative then -x else x

/-- The double nearest to a number literal. -/
def floatValue? (x : Literal) : Option Float :=
  match x.kind with
  | .int | .float =>
    ((Decimal.ofText? x.text.toList).map Decimal.toFloat).or (namedFloat? x.text.toList)
  | .string => none

end Literal

end GraphQL
