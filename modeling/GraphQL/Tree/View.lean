import GraphQL.Literal
import GraphQL.Tree.Basic

/-!
# What a construct says

Questions about a construct that its parts answer: where its punctuation stands, what it is
called, which value or type it holds, and which of its entries has a given name.
-/

namespace GraphQL.Tree

/-- The first token that is directly a part of the construct and passes the test. -/
def token? (t : Tree) (test : Token → Bool) : Option PlacedToken :=
  t.parts.findSome? fun
    | .token x => if test x.token then some x else none
    | .node _ _ => none

/-- Where the construct has its punctuation mark of the given class. -/
def mark? (t : Tree) (k : TokenKind) : Option Pos := (t.token? (·.kind = k)).map (·.pos)

/-- Where the construct has the given keyword. -/
def keyword? (t : Tree) (k : Keyword) : Option Pos := (t.token? (·.isKeyword k)).map (·.pos)

/-- The first smaller construct of the given kind. -/
def child? (t : Tree) (k : NodeKind) : Option Tree := t.parts.find? (isKind k)

/-- The text of a name. -/
def text? (t : Tree) : Option String := (t.token? (·.kind = .name)).map (·.token.text)

/-- What the construct is called, if it has a name. -/
def name? (t : Tree) : Option String := (t.child? .name).bind text?

/-! ## Operations and fields -/

/-- The kind of operation that a token directly below the construct names. -/
def operationWord? (t : Tree) : Option OperationKind :=
  (t.token? (·.operation?.isSome)).bind (·.token.operation?)

/-- The kind of an operation; one that consists of a selection set alone is a query. -/
def operationKind (t : Tree) : OperationKind :=
  ((t.child? .operationType).bind operationWord?).getD .query

/-- The operation is written as a selection set alone. -/
def isShorthand (t : Tree) : Bool := (t.child? .operationType).isNone

/-- The key under which a field appears in the response: its alias if it has one. -/
def responseKey? (t : Tree) : Option String := ((t.child? .alias).bind name?).or t.name?

/-! ## Types -/

/-- The construct is a type. -/
def isType (t : Tree) : Bool := t.isKind .namedType || t.isKind .listType

/-- The type that the construct mentions. -/
def type? (t : Tree) : Option Tree := t.parts.find? isType

/-- The type excludes null. -/
def isNonNull (t : Tree) : Bool := (t.mark? .bang).isSome

mutual

/-- The name inside all brackets of a type. -/
def innermostName? : Tree → Option String
  | .token _ => none
  | .node .namedType ps => (node .namedType ps).name?
  | .node _ ps => innermostNameOf? ps

/-- The first innermost name in a row of trees. -/
def innermostNameOf? : List Tree → Option String
  | [] => none
  | t :: ts => t.innermostName?.or (innermostNameOf? ts)

end

/-! ## Values -/

/-- The construct is a value. -/
def isValue (t : Tree) : Bool :=
  t.isKind .variable || t.isKind .literalValue || t.isKind .nameValue || t.isKind .listValue ||
    t.isKind .objectValue

/-- The value that the construct holds. -/
def value? (t : Tree) : Option Tree := t.parts.find? isValue

mutual

/-- The value mentions no variable, at any depth. -/
def isConst : Tree → Bool
  | .token _ => true
  | .node .variable _ => false
  | .node _ ps => allConst ps

/-- No tree of the row mentions a variable. -/
def allConst : List Tree → Bool
  | [] => true
  | t :: ts => t.isConst && allConst ts

end

/-- The literal that the construct consists of. -/
def literal? (t : Tree) : Option Literal :=
  (t.token? fun x => (Literal.ofToken? x).isSome).bind (Literal.ofToken? ·.token)

/-- The truth value that a name stands for. -/
def boolValue? (t : Tree) : Option Bool :=
  match t.name? with
  | some "true" => some true
  | some "false" => some false
  | _ => none

/-- The name stands for null. -/
def isNull (t : Tree) : Bool := t.name? = some "null"

/-- The name is that of an enumeration value: neither a truth value nor null. -/
def isEnum (t : Tree) : Bool := t.boolValue?.isNone && !t.isNull

/-! ## Entries by name -/

/-- The first entry of a list of arguments, directives, fields or locations with the given
name. -/
def entry? (t : Tree) (name : String) : Option Tree := t.children.find? (·.name? = some name)

end GraphQL.Tree
