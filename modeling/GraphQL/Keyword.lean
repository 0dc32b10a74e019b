/-!
# Keywords

The reserved words of the language. They are spelled like names, and whether a name acts as a
keyword depends on its place in the grammar alone.
-/

namespace GraphQL

/-- A reserved word. -/
inductive Keyword where
  | directive | enum | extend | fragment | implements | input | interface | mutation | on | query
  | scalar | schema | subscription | type | union
  deriving DecidableEq, Repr, Inhabited

namespace Keyword

/-- How the word is written. -/
def spelling : Keyword → String
  | directive => "directive"
  | enum => "enum"
  | extend => "extend"
  | fragment => "fragment"
  | implements => "implements"
  | input => "input"
  | interface => "interface"
  | mutation => "mutation"
  | on => "on"
  | query => "query"
  | scalar => "scalar"
  | schema => "schema"
  | subscription => "subscription"
  | type => "type"
  | union => "union"

/-- Every reserved word. -/
def all : List Keyword :=
  [directive, enum, extend, fragment, implements, input, interface, mutation, on, query, scalar,
    schema, subscription, type, union]

/-- The reserved word that is written exactly as `text`. -/
def lookup? (text : String) : Option Keyword := all.find? (·.spelling = text)

theorem mem_all (k : Keyword) : k ∈ all := by
  cases k <;> decide

end Keyword

/-- The three kinds of operation. -/
inductive OperationKind where
  | query | mutation | subscription
  deriving DecidableEq, Repr, Inhabited

namespace OperationKind

/-- The keyword that starts an operation of this kind. -/
def keyword : OperationKind → Keyword
  | query => .query
  | mutation => .mutation
  | subscription => .subscription

/-- The kind of operation that a keyword starts. -/
def ofKeyword? : Keyword → Option OperationKind
  | .query => some query
  | .mutation => some mutation
  | .subscription => some subscription
  | _ => none

theorem ofKeyword?_eq_some_iff {k : Keyword} {o : OperationKind} :
    ofKeyword? k = some o ↔ k = o.keyword := by
  cases k <;> cases o <;> decide

end OperationKind

end GraphQL
