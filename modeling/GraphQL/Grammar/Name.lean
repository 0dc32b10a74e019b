import GraphQL.Grammar.Basic

/-!
# Names and types

What refers to something by its name: names themselves, the keywords of operations, and types.
-/

namespace GraphQL.Grammar

/-- Any name, reserved words included. -/
def name : Grammar := node .name (mark .name)

/-- The keyword of an operation. -/
def operationType : Grammar := node .operationType (token .operation)

/-- A type that is just a name, without an exclamation mark. -/
def namedType : Grammar := node .namedType name

/-- A name or a bracketed type, either with an exclamation mark behind it or not. -/
def typeBody : Grammar :=
  choice (.next (.kind .name))
    (node .namedType (inOrder [name, whenNext (.kind .bang) (mark .bang)]))
    (choice (.next (.kind .bracketOpen))
      (nested
        (node .listType
          (inOrder [mark .bracketOpen, call .type, mark .bracketClose,
            whenNext (.kind .bang) (mark .bang)])))
      (fail "NAME or ["))

end GraphQL.Grammar
