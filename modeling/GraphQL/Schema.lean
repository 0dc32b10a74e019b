import GraphQL.Tree.Span
import GraphQL.Tree.View

/-!
# Schema documents

A schema keeps its definitions in nine groups, one for each kind of definition, each in source
order. An extension goes into a group of its own, apart from the types it extends. The source
order of all definitions together is not stored: it is restored by sorting on where they start.
-/

namespace GraphQL

/-- The definitions of a schema document, grouped by kind. -/
structure Schema where
  schemas : List Tree := []
  scalars : List Tree := []
  types : List Tree := []
  interfaces : List Tree := []
  unions : List Tree := []
  enums : List Tree := []
  inputObjects : List Tree := []
  extensions : List Tree := []
  directives : List Tree := []
  /-- Where the first definition starts; none if there is no definition. -/
  pos : Pos := .none
  /-- Just behind the last definition. -/
  stop : Pos := .none
  deriving DecidableEq, Repr, Inhabited

namespace Schema

/-- Groups the definitions of a document, given in source order. -/
def ofDefinitions (ds : List Tree) : Schema where
  schemas := ds.filter (·.isKind .schemaDefinition)
  scalars := ds.filter (·.isKind .scalarDefinition)
  types := ds.filter (·.isKind .typeDefinition)
  interfaces := ds.filter (·.isKind .interfaceDefinition)
  unions := ds.filter (·.isKind .unionDefinition)
  enums := ds.filter (·.isKind .enumDefinition)
  inputObjects := ds.filter (·.isKind .inputObjectDefinition)
  extensions := ds.filter (·.isKind .extendDefinition)
  directives := ds.filter (·.isKind .directiveDefinition)
  pos := (ds.head?.map Tree.pos).getD .none
  stop := (ds.getLast?.map Tree.stop).getD .none

/-- The nine groups. -/
def groups (s : Schema) : List (List Tree) :=
  [s.schemas, s.scalars, s.types, s.interfaces, s.unions, s.enums, s.inputObjects, s.extensions,
    s.directives]

/-- How many definitions there are in all groups together. -/
def definitionCount (s : Schema) : Nat := s.groups.flatten.length

/-- There is no definition in any group. -/
def isEmpty (s : Schema) : Bool := s.definitionCount = 0

/-- The definitions of all groups in source order. -/
def definitions (s : Schema) : List Tree :=
  s.groups.flatten.mergeSort fun a b => a.pos.raw ≤ b.pos.raw

/-- The schema as one syntax tree. -/
def tree (s : Schema) : Tree := .node .schema s.definitions

/-- The first definition of an object type with the given name. Extensions do not count. -/
def typeDefinition? (s : Schema) (name : String) : Option Tree :=
  s.types.find? (·.name? = some name)

end Schema

end GraphQL
