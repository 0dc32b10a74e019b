import GraphQL.Tree.Basic

/-!
# Grammars

A grammar says how a construct is put together from tokens and smaller constructs. Every choice
in it is made by looking at the next token or the next two, so a text has at most one reading and
a grammar can be run as it stands. Each way of looking says which tokens it looks at: the second
one only when the first one passes.

The constructs that contain themselves, namely selection sets, values and types, are called by
name; all others are written out where they occur.
-/

namespace GraphQL

/-- What a single token may be required to be. -/
inductive Terminal where
  /-- Any token of the class. -/
  | kind (k : TokenKind)
  /-- The name spelled like the keyword. -/
  | keyword (k : Keyword)
  /-- The keyword of some kind of operation. -/
  | operation
  /-- A name other than `on`. -/
  | fragmentName
  deriving DecidableEq, Repr, Inhabited

namespace Terminal

/-- The token is as required. -/
def accepts : Terminal → Token → Bool
  | kind k, t => t.kind = k
  | keyword k, t => t.isKeyword k
  | operation, t => t.operation?.isSome
  | fragmentName, t => t.kind = .name && !t.isKeyword .on

/-- What is said to be expected when the token `found` is not as required. -/
def expectation (found : Token) : Terminal → String
  | kind k => k.display
  | keyword k => k.spelling
  | operation => "query or mutation or subscription"
  | fragmentName => if found.isKeyword .on then "NAME but not *on*" else TokenKind.name.display

end Terminal

/-- A condition on the tokens ahead. -/
inductive Lookahead where
  /-- The next token is as required. -/
  | next (t : Terminal)
  /-- The next token is not as required. -/
  | nextNot (t : Terminal)
  /-- The next token and the one behind it are as required. -/
  | nextTwo (t u : Terminal)
  deriving DecidableEq, Repr, Inhabited

/-- The constructs that contain themselves. -/
inductive Rule where
  | selectionSet
  /-- A value; one that is `constant` mentions no variable. -/
  | value (constant : Bool)
  | type
  deriving DecidableEq, Repr, Inhabited

/-- How a construct is put together. -/
inductive Grammar where
  /-- Nothing. -/
  | done
  /-- One token, which becomes a part of the construct. -/
  | token (t : Terminal)
  /-- One token that leaves no trace in the tree. -/
  | separator (t : Terminal)
  /-- No text at all; something else was expected here. -/
  | fail (expected : String)
  /-- One thing and then another. -/
  | seq (first second : Grammar)
  /-- One of two things, depending on the tokens ahead. -/
  | choice (test : Lookahead) (yes no : Grammar)
  /-- The same thing again for as long as the tokens ahead pass. -/
  | many (test : Lookahead) (item : Grammar)
  /-- A construct of its own. -/
  | node (kind : NodeKind) (body : Grammar)
  /-- Something that counts as one level of nesting. -/
  | nested (body : Grammar)
  /-- A construct that contains itself. -/
  | call (rule : Rule)
  deriving DecidableEq, Repr, Inhabited

namespace Grammar

/-- The given things one after another. -/
def inOrder : List Grammar → Grammar
  | [] => done
  | [g] => g
  | g :: gs => seq g (inOrder gs)

/-- A token of the class. -/
def mark (k : TokenKind) : Grammar := token (.kind k)

/-- The keyword. -/
def word (k : Keyword) : Grammar := token (.keyword k)

/-- The thing if the next token is as required, and nothing otherwise. -/
def whenNext (t : Terminal) (g : Grammar) : Grammar := choice (.next t) g done

/-- The thing at least once, and again for as long as the next token is as required. -/
def oneOrMore (t : Terminal) (g : Grammar) : Grammar := seq g (many (.next t) g)

/-- At least one item between brackets. -/
def between (opening closing : TokenKind) (item : Grammar) : Grammar :=
  inOrder [mark opening, item, many (.nextNot (.kind closing)) item, mark closing]

/-- A bar in front of the first item if there is one, then items with bars between them. -/
def barred (item : Grammar) : Grammar :=
  inOrder [whenNext (.kind .pipe) (mark .pipe), item,
    many (.next (.kind .pipe)) (seq (separator (.kind .pipe)) item)]

end Grammar

end GraphQL
