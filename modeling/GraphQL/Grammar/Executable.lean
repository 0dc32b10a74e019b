import GraphQL.Grammar.Value

/-!
# The grammar of executable documents

Operations and fragments. An ellipsis starts an inline fragment unless a name other than `on`
follows, and a name starts an alias if a colon follows; these two choices need the second token.
-/

namespace GraphQL.Grammar

/-- The name of a fragment. -/
def fragmentName : Grammar := node .name (token .fragmentName)

/-- The type that a fragment applies to. -/
def typeCondition : Grammar := node .typeCondition (inOrder [word .on, namedType])

/-- A field with what it may have in front and behind. -/
def field : Grammar :=
  node .field
    (inOrder [
      choice (.nextTwo (.kind .name) (.kind .colon))
        (node .alias (inOrder [name, mark .colon])) done,
      name, optionalArguments false, optionalDirectives false,
      whenNext (.kind .braceOpen) (call .selectionSet)])

/-- A reference to a fragment. -/
def fragmentSpread : Grammar :=
  node .fragmentSpread (inOrder [mark .spread, fragmentName, optionalDirectives false])

/-- A fragment written in place. -/
def inlineFragment : Grammar :=
  node .inlineFragment
    (inOrder [mark .spread, whenNext (.keyword .on) typeCondition, optionalDirectives false,
      call .selectionSet])

/-- One entry of a selection set. -/
def selection : Grammar :=
  choice (.nextTwo (.kind .spread) .fragmentName) fragmentSpread
    (choice (.next (.kind .spread)) inlineFragment field)

/-- Selections between braces. -/
def selectionSetBody : Grammar :=
  nested (node .selectionSet (between .braceOpen .braceClose selection))

/-- A variable with its type and its default. -/
def variableDefinition : Grammar :=
  node .variableDefinition (inOrder [variableReference, mark .colon, call .type, optionalDefault])

/-- An operation that starts with its keyword. -/
def namedOperation : Grammar :=
  node .operationDefinition
    (inOrder [operationType, whenNext (.kind .name) name,
      whenNext (.kind .parenOpen)
        (node .variableDefinitions (between .parenOpen .parenClose variableDefinition)),
      optionalDirectives false, call .selectionSet])

/-- An operation, or just a selection set. -/
def operationDefinition : Grammar :=
  choice (.next (.kind .braceOpen)) (node .operationDefinition (call .selectionSet))
    (choice (.next .operation) namedOperation
      (fail "\x7b or query or mutation or subscription"))

/-- A fragment that can be referred to. -/
def fragmentDefinition : Grammar :=
  node .fragmentDefinition
    (inOrder [word .fragment, fragmentName, typeCondition, optionalDirectives false,
      call .selectionSet])

/-- A definition of an executable document. -/
def executableDefinition : Grammar :=
  choice (.next (.keyword .fragment)) fragmentDefinition operationDefinition

/-- An executable document, up to the end of the text. -/
def executableDocument : Grammar := many (.nextNot (.kind .eof)) executableDefinition

/-- What the constructs that contain themselves consist of. -/
def ofRule : Rule → Grammar
  | .selectionSet => selectionSetBody
  | .value constant => valueBody constant
  | .type => typeBody

end GraphQL.Grammar
