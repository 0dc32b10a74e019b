import GraphQL.Proofs.Ebnf.Basic

/-!
# The productions of the language

The grammar of executable documents and of schema documents in EBNF. Where a
production has alternatives, any of them may be taken. Node kinds mark which
part of the text becomes which construct of the tree.

Constant values are values without variables, at any depth.
-/

namespace GraphQL.Ebnf

/-! ## Names, types, values -/

/-- Any name, reserved words included. -/
def name : Ebnf := node .name (mark .name)

/-- Any name except `on`. -/
def fragmentName : Ebnf := node .name (terminal .fragmentName)

/-- `query`, `mutation` or `subscription`. -/
def operationType : Ebnf := node .operationType (terminal .operation)

/-- A type that is a name without an exclamation mark. -/
def namedType : Ebnf := node .namedType name

/-- `Type = Name '!'? | '[' Type ']' '!'?` -/
def type : Ebnf :=
  alt
    (node .namedType (inOrder [name, opt (mark .bang)]))
    (node .listType
      (inOrder [mark .bracketOpen, ref .type, mark .bracketClose, opt (mark .bang)]))

/-- `'$' Name` -/
def variableReference : Ebnf := node .variable (inOrder [mark .dollar, name])

/-- `Name ':' Value` -/
def namedValue (k : NodeKind) (constant : Bool) : Ebnf :=
  node k (inOrder [name, mark .colon, ref (.value constant)])

/-- `Int | Float | String | Name | '[' Value* ']' | '{' (Name ':' Value)+ '}'`, all values
inside being constant or not as this one is. -/
def valueWithoutVariable (constant : Bool) : Ebnf :=
  alt (node .literalValue (mark .int))
    (alt (node .literalValue (mark .float))
      (alt (node .literalValue (mark .string))
        (alt (node .nameValue name)
          (alt
            (node .listValue
              (inOrder [mark .bracketOpen, star (ref (.value constant)), mark .bracketClose]))
            (node .objectValue
              (between .braceOpen .braceClose (namedValue .objectField constant)))))))

/-- A value of any form, or one that is constant. -/
def value : Bool → Ebnf
  | true => valueWithoutVariable true
  | false => alt variableReference (valueWithoutVariable false)

/-- `('=' ConstValue)?` -/
def optionalDefault : Ebnf :=
  opt (node .defaultValue (inOrder [mark .equals, ref (.value true)]))

/-- `('(' (Name ':' Value)+ ')')?` -/
def optionalArguments (constant : Bool) : Ebnf :=
  opt (node .arguments (between .parenOpen .parenClose (namedValue .argument constant)))

/-- `('@' Name Arguments?)*`, where at least one directive makes a construct of its own. -/
def optionalDirectives (constant : Bool) : Ebnf :=
  opt (node .directives
    (plus (node .directive (inOrder [mark .atSign, name, optionalArguments constant]))))

/-! ## Executable documents -/

/-- `'on' Name` -/
def typeCondition : Ebnf := node .typeCondition (inOrder [word .on, namedType])

/-- `(Name ':')? Name Arguments? Directives? SelectionSet?` -/
def field : Ebnf :=
  node .field
    (inOrder [opt (node .alias (inOrder [name, mark .colon])), name, optionalArguments false,
      optionalDirectives false, opt (ref .selectionSet)])

/-- `'...' FragName Directives?` -/
def fragmentSpread : Ebnf :=
  node .fragmentSpread (inOrder [mark .spread, fragmentName, optionalDirectives false])

/-- `'...' ('on' Name)? Directives? SelectionSet` -/
def inlineFragment : Ebnf :=
  node .inlineFragment
    (inOrder [mark .spread, opt typeCondition, optionalDirectives false, ref .selectionSet])

/-- A field, a fragment spread or an inline fragment. -/
def selection : Ebnf := alt fragmentSpread (alt inlineFragment field)

/-- `SelectionSet = '{' Selection+ '}'` -/
def selectionSet : Ebnf := node .selectionSet (between .braceOpen .braceClose selection)

/-- `'$' Name ':' Type ('=' ConstValue)?` -/
def variableDefinition : Ebnf :=
  node .variableDefinition (inOrder [variableReference, mark .colon, ref .type, optionalDefault])

/-- `SelectionSet`, or
`(query|mutation|subscription) Name? ('(' VariableDefinition+ ')')? Directives? SelectionSet`. -/
def operation : Ebnf :=
  alt (node .operationDefinition (ref .selectionSet))
    (node .operationDefinition
      (inOrder [operationType, opt name,
        opt (node .variableDefinitions (between .parenOpen .parenClose variableDefinition)),
        optionalDirectives false, ref .selectionSet]))

/-- `'fragment' FragName 'on' Name Directives? SelectionSet` -/
def fragment : Ebnf :=
  node .fragmentDefinition
    (inOrder [word .fragment, fragmentName, typeCondition, optionalDirectives false,
      ref .selectionSet])

/-- `Document = (Operation | Fragment)*` -/
def document : Ebnf := node .document (star (alt fragment operation))

/-! ## Schema documents -/

/-- `InputValue = Name ':' Type ('=' ConstValue)? CDirs?` -/
def inputValue : Ebnf :=
  node .inputValueDefinition
    (inOrder [name, mark .colon, ref .type, optionalDefault, optionalDirectives true])

/-- `ArgsDef? = ('(' InputValue+ ')')?` -/
def optionalArgumentsDefinition : Ebnf :=
  opt (node .argumentsDefinition (between .parenOpen .parenClose inputValue))

/-- `Fields = '{' (Name ArgsDef? ':' Type CDirs?)+ '}'` -/
def fields : Ebnf :=
  node .fieldsDefinition
    (between .braceOpen .braceClose
      (node .fieldDefinition
        (inOrder [name, optionalArgumentsDefinition, mark .colon, ref .type,
          optionalDirectives true])))

/-- `schema CDirs? '{' ((query|mutation|subscription) ':' Name)+ '}'` -/
def schemaDefinition : Ebnf :=
  node .schemaDefinition
    (inOrder [word .schema, optionalDirectives true,
      between .braceOpen .braceClose
        (node .operationTypeDefinition (inOrder [operationType, mark .colon, namedType]))])

/-- `scalar Name CDirs?` -/
def scalarDefinition : Ebnf :=
  node .scalarDefinition (inOrder [word .scalar, name, optionalDirectives true])

/-- `TypeDef = type Name (implements Name+)? CDirs? Fields` -/
def typeDefinition : Ebnf :=
  node .typeDefinition
    (inOrder [word .type, name,
      opt (node .implementsInterfaces (inOrder [word .implements, namedType, star namedType])),
      optionalDirectives true, fields])

/-- `interface Name CDirs? Fields` -/
def interfaceDefinition : Ebnf :=
  node .interfaceDefinition (inOrder [word .interface, name, optionalDirectives true, fields])

/-- `union Name CDirs? '=' '|'? Name ('|' Name)*` -/
def unionDefinition : Ebnf :=
  node .unionDefinition
    (inOrder [word .union, name, optionalDirectives true, mark .equals,
      node .members (barred (node .member name))])

/-- `enum Name CDirs? '{' (Name CDirs?)+ '}'` -/
def enumDefinition : Ebnf :=
  node .enumDefinition
    (inOrder [word .enum, name, optionalDirectives true,
      between .braceOpen .braceClose (node .enumValue (inOrder [name, optionalDirectives true]))])

/-- `input Name CDirs? '{' InputValue+ '}'` -/
def inputObjectDefinition : Ebnf :=
  node .inputObjectDefinition
    (inOrder [word .input, name, optionalDirectives true,
      node .inputFieldsDefinition (between .braceOpen .braceClose inputValue)])

/-- `extend TypeDef` -/
def extendDefinition : Ebnf :=
  node .extendDefinition (inOrder [word .extend, typeDefinition])

/-- `directive '@' Name ArgsDef? on '|'? Name ('|' Name)*` -/
def directiveDefinition : Ebnf :=
  node .directiveDefinition
    (inOrder [word .directive, mark .atSign, name, optionalArgumentsDefinition, word .on,
      node .locations (barred (node .location name))])

/-- A schema document: definitions of nine kinds in any order. -/
def schema : Ebnf :=
  node .schema
    (star
      (alt schemaDefinition
        (alt scalarDefinition
          (alt typeDefinition
            (alt interfaceDefinition
              (alt unionDefinition
                (alt enumDefinition
                  (alt inputObjectDefinition (alt extendDefinition directiveDefinition)))))))))

/-! ## The recursive constructs -/

/-- What the recursive constructs stand for. -/
def ofRule : Rule → Ebnf
  | .selectionSet => selectionSet
  | .value constant => value constant
  | .type => type

end GraphQL.Ebnf
