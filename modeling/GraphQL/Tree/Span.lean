import GraphQL.Grammar.Basic

/-!
# Where a construct stands

No construct stores where it starts and ends. Each kind of construct has parts by which it can
tell, tried one after another because some of them may be missing: a field ends with its selection
set if it has one, otherwise with its directives, and so on down to its name. Such a part is a
smaller construct, which tells in its turn, or a token.

A token says where it starts. Where it ends is stored for literals only; a name ends as many bytes
behind its start as its text has, and a punctuator as many as its spelling has.
-/

namespace GraphQL

/-- A part by which a construct can tell where it starts or ends. -/
inductive Landmark where
  /-- A token that is directly a part of the construct. -/
  | token (t : Terminal)
  /-- A smaller construct of one of the kinds. -/
  | construct (ks : List NodeKind)
  deriving DecidableEq, Repr, Inhabited

namespace Landmark

/-- A punctuator or a literal of the class. -/
def mark (k : TokenKind) : Landmark := token (.kind k)

/-- The keyword. -/
def word (k : Keyword) : Landmark := token (.keyword k)

/-- A smaller construct of the kind. -/
def part (k : NodeKind) : Landmark := construct [k]

/-- A literal of any class. -/
def literals : List Landmark := [mark .int, mark .float, mark .string]

/-- A type. -/
def type : Landmark := construct [.namedType, .listType]

/-- A value. -/
def value : Landmark :=
  construct [.variable, .literalValue, .nameValue, .listValue, .objectValue]

/-- A definition of an executable document. -/
def executableDefinition : Landmark := construct [.operationDefinition, .fragmentDefinition]

/-- A definition of a schema document. -/
def schemaItem : Landmark :=
  construct [.schemaDefinition, .scalarDefinition, .typeDefinition, .interfaceDefinition,
    .unionDefinition, .enumDefinition, .inputObjectDefinition, .extendDefinition,
    .directiveDefinition]

/-- The tree is such a part. -/
def fits : Landmark → Tree → Bool
  | token t, .token x => t.accepts x.token
  | construct ks, .node k _ => k ∈ ks
  | token _, .node _ _ | construct _, .token _ => false

/-- What is recorded for the first part that fits. -/
def first? (l : Landmark) (parts : List (Tree × Pos)) : Option Pos :=
  (parts.find? fun p => l.fits p.1).map (·.2)

/-- What is recorded for the part that the first of the landmarks leads to, if any does. -/
def pick (ls : List Landmark) (parts : List (Tree × Pos)) : Pos :=
  (ls.findSome? (·.first? parts)).getD .none

end Landmark

namespace NodeKind

open Landmark

/-- The parts by which a construct of the kind tells where it starts. -/
def opening : NodeKind → List Landmark
  | .document => [executableDefinition]
  | .operationDefinition => [part .operationType, part .selectionSet]
  | .operationType => [.token .operation]
  | .variableDefinitions | .arguments | .argumentsDefinition => [mark .parenOpen]
  | .variableDefinition => [part .variable]
  | .defaultValue => [mark .equals]
  | .variable => [mark .dollar]
  | .selectionSet | .objectValue | .fieldsDefinition | .inputFieldsDefinition => [mark .braceOpen]
  | .field => [part .alias, part .name]
  | .fragmentSpread | .inlineFragment => [mark .spread]
  | .fragmentDefinition => [word .fragment]
  | .typeCondition => [word .on]
  | .directives => [part .directive]
  | .directive => [mark .atSign]
  | .literalValue => literals
  | .listValue | .listType => [mark .bracketOpen]
  | .alias | .argument | .nameValue | .objectField | .namedType | .fieldDefinition
  | .inputValueDefinition | .member | .enumValue | .location => [part .name]
  | .name => [mark .name]
  | .schema => [schemaItem]
  | .schemaDefinition => [word .schema]
  | .operationTypeDefinition => [part .operationType]
  | .scalarDefinition => [word .scalar]
  | .typeDefinition => [word .type]
  | .implementsInterfaces => [word .implements]
  | .interfaceDefinition => [word .interface]
  | .unionDefinition => [word .union]
  | .members => [mark .pipe, part .member]
  | .enumDefinition => [word .enum]
  | .inputObjectDefinition => [word .input]
  | .extendDefinition => [word .extend]
  | .directiveDefinition => [word .directive]
  | .locations => [mark .pipe, part .location]

/-- The parts by which a construct of the kind tells where it ends. -/
def closing : NodeKind → List Landmark
  | .document => [executableDefinition]
  | .operationDefinition | .inlineFragment | .fragmentDefinition => [part .selectionSet]
  | .operationType => [.token .operation]
  | .variableDefinitions | .arguments | .argumentsDefinition => [mark .parenClose]
  | .variableDefinition => [part .defaultValue, type]
  | .defaultValue | .argument | .objectField => [value]
  | .selectionSet | .objectValue | .schemaDefinition | .fieldsDefinition | .enumDefinition
  | .inputFieldsDefinition => [mark .braceClose]
  | .field => [part .selectionSet, part .directives, part .arguments, part .name]
  | .alias => [mark .colon]
  | .fragmentSpread | .scalarDefinition | .enumValue => [part .directives, part .name]
  | .typeCondition | .operationTypeDefinition => [part .namedType]
  | .directives => [part .directive]
  | .directive => [part .arguments, part .name]
  | .literalValue => literals
  | .variable | .nameValue | .member | .location => [part .name]
  | .listValue => [mark .bracketClose]
  | .namedType => [mark .bang, part .name]
  | .listType => [mark .bang, mark .bracketClose]
  | .name => [mark .name]
  | .schema => [schemaItem]
  | .typeDefinition | .interfaceDefinition => [part .fieldsDefinition]
  | .implementsInterfaces => [part .namedType, word .implements]
  | .fieldDefinition => [part .directives, type]
  | .inputValueDefinition => [part .directives, part .defaultValue, type]
  | .unionDefinition => [part .members]
  | .members => [part .member]
  | .inputObjectDefinition => [part .inputFieldsDefinition]
  | .extendDefinition => [part .typeDefinition]
  | .directiveDefinition => [part .locations]
  | .locations => [part .location]

end NodeKind

/-- Just behind a token, reckoned from where it starts unless it is a literal. -/
def PlacedToken.ending (x : PlacedToken) : Pos :=
  match x.token.kind with
  | .int | .float | .string => x.stop
  | k => x.pos.advance (k.punctuator?.getD x.token.text).utf8ByteSize

namespace Tree

mutual

/-- Where the tree starts; a construct that cannot tell has no position. -/
def pos : Tree → Pos
  | .token x => x.pos
  | .node k ps => Landmark.pick k.opening (starts ps)

/-- The trees of a row with where they start. -/
def starts : List Tree → List (Tree × Pos)
  | [] => []
  | t :: ts => (t, t.pos) :: starts ts

end

mutual

/-- The position just behind the tree. -/
def stop : Tree → Pos
  | .token x => x.ending
  | .node k ps => Landmark.pick k.closing (stops ps).reverse

/-- The trees of a row with where they end. -/
def stops : List Tree → List (Tree × Pos)
  | [] => []
  | t :: ts => (t, t.stop) :: stops ts

end

theorem starts_eq_map (ts : List Tree) : starts ts = ts.map fun t => (t, t.pos) := by
  induction ts with
  | nil => simp only [starts, List.map_nil]
  | cons t ts ih => simp only [starts, ih, List.map_cons]

theorem stops_eq_map (ts : List Tree) : stops ts = ts.map fun t => (t, t.stop) := by
  induction ts with
  | nil => simp only [stops, List.map_nil]
  | cons t ts ih => simp only [stops, ih, List.map_cons]

end Tree

end GraphQL
