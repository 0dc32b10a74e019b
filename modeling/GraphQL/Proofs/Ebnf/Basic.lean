import GraphQL.Grammar.Basic

/-!
# Grammars in EBNF

An `Ebnf` expression says which rows of tokens a construct may consist of and
which trees they stand for. It says nothing about how to tell the alternatives
apart: there is no order among them, nothing is looked at ahead of time, and a
repetition may end anywhere. The recursive constructs are referred to by name.
-/

namespace GraphQL

/-- A right-hand side of a production. -/
inductive Ebnf where
  /-- The empty row of tokens. -/
  | empty
  /-- No row of tokens at all. -/
  | never
  /-- One token, which becomes a leaf of the tree. -/
  | terminal (t : Terminal)
  /-- One token that is not kept in the tree. -/
  | hidden (t : Terminal)
  /-- One expression behind another. -/
  | seq (first second : Ebnf)
  /-- Either of two expressions. -/
  | alt (left right : Ebnf)
  /-- An expression any number of times. -/
  | star (item : Ebnf)
  /-- An expression whose trees are the parts of a construct. -/
  | node (kind : NodeKind) (body : Ebnf)
  /-- A recursive construct. -/
  | ref (rule : Rule)
  deriving DecidableEq, Repr, Inhabited

namespace Ebnf

/-- The expression or nothing. -/
def opt (e : Ebnf) : Ebnf := alt e empty

/-- The expression at least once. -/
def plus (e : Ebnf) : Ebnf := seq e (star e)

/-- Expressions one behind another. -/
def inOrder : List Ebnf → Ebnf
  | [] => empty
  | [e] => e
  | e :: es => seq e (inOrder es)

/-- A punctuator or a literal token of the given class. -/
def mark (k : TokenKind) : Ebnf := terminal (.kind k)

/-- A name spelled like the keyword. -/
def word (k : Keyword) : Ebnf := terminal (.keyword k)

/-- The expression at least once, between two punctuators. -/
def between (opening closing : TokenKind) (e : Ebnf) : Ebnf :=
  inOrder [mark opening, e, star e, mark closing]

/-- The expression at least once, with bars in between and possibly one in
front. The bars in between leave no trace in the tree. -/
def barred (e : Ebnf) : Ebnf :=
  inOrder [opt (mark .pipe), e, star (seq (hidden (.kind .pipe)) e)]

end Ebnf

end GraphQL
