import GraphQL.Pos
import GraphQL.Token

/-!
# Syntax trees

A syntax tree has the tokens of a text at its leaves, each with the positions it occupies, and a
kind of construct at each inner node. All facts about a construct are read off its parts: where
it starts and ends, which optional parts it has, and where its punctuation and keywords stand.
Names are nodes of their own, so a name token directly below any other kind of node is a keyword
of that construct.

The parts of a node are complete up to one exception: the bars between the members of a union and
between the locations of a directive are left out, while a bar in front of the first one is kept.
-/

namespace GraphQL

/-- The kinds of construct. -/
inductive NodeKind where
  | document | operationDefinition | operationType | variableDefinitions | variableDefinition
  | defaultValue | variable | selectionSet | field | alias | fragmentSpread | inlineFragment
  | fragmentDefinition | typeCondition | arguments | argument | directives | directive
  | literalValue | nameValue | listValue | objectValue | objectField | namedType | listType | name
  | schema | schemaDefinition | operationTypeDefinition | scalarDefinition | typeDefinition
  | implementsInterfaces | fieldsDefinition | fieldDefinition | argumentsDefinition
  | inputValueDefinition | interfaceDefinition | unionDefinition | members | member
  | enumDefinition | enumValue | inputObjectDefinition | inputFieldsDefinition | extendDefinition
  | directiveDefinition | locations | location
  deriving DecidableEq, Repr, Inhabited

/-- The name of a kind of construct. -/
def NodeKind.label : NodeKind → String
  | .document => "Document"
  | .operationDefinition => "OperationDefinition"
  | .operationType => "OperationType"
  | .variableDefinitions => "VariableDefinitions"
  | .variableDefinition => "VariableDefinition"
  | .defaultValue => "DefaultValue"
  | .variable => "Variable"
  | .selectionSet => "SelectionSet"
  | .field => "Field"
  | .alias => "Alias"
  | .fragmentSpread => "FragmentSpread"
  | .inlineFragment => "InlineFragment"
  | .fragmentDefinition => "FragmentDefinition"
  | .typeCondition => "TypeCondition"
  | .arguments => "Arguments"
  | .argument => "Argument"
  | .directives => "Directives"
  | .directive => "Directive"
  | .literalValue => "LiteralValue"
  | .nameValue => "NameValue"
  | .listValue => "ListValue"
  | .objectValue => "ObjectValue"
  | .objectField => "ObjectField"
  | .namedType => "NamedType"
  | .listType => "ListType"
  | .name => "Name"
  | .schema => "Schema"
  | .schemaDefinition => "SchemaDefinition"
  | .operationTypeDefinition => "OperationTypeDefinition"
  | .scalarDefinition => "ScalarDefinition"
  | .typeDefinition => "TypeDefinition"
  | .implementsInterfaces => "ImplementsInterfaces"
  | .fieldsDefinition => "FieldsDefinition"
  | .fieldDefinition => "FieldDefinition"
  | .argumentsDefinition => "ArgumentsDefinition"
  | .inputValueDefinition => "InputValueDefinition"
  | .interfaceDefinition => "InterfaceDefinition"
  | .unionDefinition => "UnionDefinition"
  | .members => "Members"
  | .member => "Member"
  | .enumDefinition => "EnumDefinition"
  | .enumValue => "EnumValue"
  | .inputObjectDefinition => "InputObjectDefinition"
  | .inputFieldsDefinition => "InputFieldsDefinition"
  | .extendDefinition => "ExtendDefinition"
  | .directiveDefinition => "DirectiveDefinition"
  | .locations => "Locations"
  | .location => "Location"

/-- A token at its place in the space of positions: `pos` is where it starts, `stop` the position
just behind it. -/
structure PlacedToken where
  token : Token
  pos : Pos
  stop : Pos
  deriving DecidableEq, Repr, Inhabited

/-- A token, or a construct and its parts in source order. -/
inductive Tree where
  | token (t : PlacedToken)
  | node (kind : NodeKind) (parts : List Tree)
  deriving Repr, Inhabited

namespace Tree

mutual

/-- Equality of trees can be decided; positions count. -/
def decEq : (a b : Tree) → Decidable (a = b)
  | .token s, .token t =>
    if h : s = t then isTrue (by rw [h]) else isFalse (by intro e; cases e; exact h rfl)
  | .node k ps, .node l qs =>
    if hk : k = l then
      match decEqParts ps qs with
      | isTrue hp => isTrue (by rw [hk, hp])
      | isFalse hp => isFalse (by intro e; cases e; exact hp rfl)
    else isFalse (by intro e; cases e; exact hk rfl)
  | .token _, .node _ _ => isFalse (by intro e; cases e)
  | .node _ _, .token _ => isFalse (by intro e; cases e)

/-- Equality of rows of trees can be decided. -/
def decEqParts : (ps qs : List Tree) → Decidable (ps = qs)
  | [], [] => isTrue rfl
  | p :: ps, q :: qs =>
    match decEq p q with
    | isTrue h =>
      match decEqParts ps qs with
      | isTrue hs => isTrue (by rw [h, hs])
      | isFalse hs => isFalse (by intro e; cases e; exact hs rfl)
    | isFalse h => isFalse (by intro e; cases e; exact h rfl)
  | [], _ :: _ => isFalse (by intro e; cases e)
  | _ :: _, [] => isFalse (by intro e; cases e)

end

instance : DecidableEq Tree := decEq

/-- The kind of a construct; tokens have none. -/
def kind? : Tree → Option NodeKind
  | .token _ => none
  | .node k _ => some k

/-- The tree is a construct of kind `k`. -/
def isKind (k : NodeKind) (t : Tree) : Bool := t.kind? = some k

/-- The parts of a construct, tokens and smaller constructs. -/
def parts : Tree → List Tree
  | .token _ => []
  | .node _ ps => ps

/-- The constructs that a construct directly consists of, in source order. -/
def children (t : Tree) : List Tree := t.parts.filter (·.kind?.isSome)

mutual

/-- The tokens of a tree in source order. -/
def tokens : Tree → List PlacedToken
  | .token t => [t]
  | .node _ ps => tokensOf ps

/-- The tokens of a row of trees. -/
def tokensOf : List Tree → List PlacedToken
  | [] => []
  | t :: ts => t.tokens ++ tokensOf ts

end

@[simp] theorem tokens_token (t : PlacedToken) : (token t).tokens = [t] := by
  simp only [tokens]

@[simp] theorem tokens_node (k : NodeKind) (ps : List Tree) :
    (node k ps).tokens = tokensOf ps := by
  simp only [tokens]

theorem tokensOf_append (ps qs : List Tree) :
    tokensOf (ps ++ qs) = tokensOf ps ++ tokensOf qs := by
  induction ps with
  | nil => simp [tokensOf]
  | cons p ps ih => simp [tokensOf, ih]

end Tree

end GraphQL
