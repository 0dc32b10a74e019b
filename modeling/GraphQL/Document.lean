import GraphQL.Tree.View

/-!
# Executable documents

An executable document is a row of operations and fragments, kept in source order.
-/

namespace GraphQL

/-- The definitions of an executable document. -/
structure Document where
  definitions : List Tree := []
  deriving DecidableEq, Repr, Inhabited

namespace Document

/-- The document as one syntax tree. -/
def tree (d : Document) : Tree := .node .document d.definitions

/-- The operations among the definitions. -/
def operations (d : Document) : List Tree := d.definitions.filter (·.isKind .operationDefinition)

/-- The fragments among the definitions. -/
def fragments (d : Document) : List Tree := d.definitions.filter (·.isKind .fragmentDefinition)

end Document

end GraphQL
