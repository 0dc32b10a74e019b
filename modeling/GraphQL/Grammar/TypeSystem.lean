import GraphQL.Grammar.Value

/-!
# The grammar of schema documents

Nine kinds of definition, each announced by its keyword. Only object types can be extended.
-/

namespace GraphQL.Grammar

/-- An argument or an input field, with its type and its default. -/
def inputValueDefinition : Grammar :=
  node .inputValueDefinition
    (inOrder [name, mark .colon, call .type, optionalDefault, optionalDirectives true])

/-- The arguments that a field or a directive takes, or nothing. -/
def optionalArgumentsDefinition : Grammar :=
  whenNext (.kind .parenOpen)
    (node .argumentsDefinition (between .parenOpen .parenClose inputValueDefinition))

/-- A field of an object type or an interface. -/
def fieldDefinition : Grammar :=
  node .fieldDefinition
    (inOrder [name, optionalArgumentsDefinition, mark .colon, call .type,
      optionalDirectives true])

/-- Fields between braces. -/
def fieldsDefinition : Grammar :=
  node .fieldsDefinition (between .braceOpen .braceClose fieldDefinition)

/-- The root type of one kind of operation. -/
def operationTypeDefinition : Grammar :=
  node .operationTypeDefinition (inOrder [operationType, mark .colon, namedType])

/-- The root types of a schema. -/
def schemaDefinition : Grammar :=
  node .schemaDefinition
    (inOrder [word .schema, optionalDirectives true,
      between .braceOpen .braceClose operationTypeDefinition])

/-- A scalar type. -/
def scalarDefinition : Grammar :=
  node .scalarDefinition (inOrder [word .scalar, name, optionalDirectives true])

/-- The interfaces of an object type. -/
def implementsInterfaces : Grammar :=
  node .implementsInterfaces
    (inOrder [word .implements, namedType, many (.next (.kind .name)) namedType])

/-- An object type. -/
def typeDefinition : Grammar :=
  node .typeDefinition
    (inOrder [word .type, name, whenNext (.keyword .implements) implementsInterfaces,
      optionalDirectives true, fieldsDefinition])

/-- An interface. -/
def interfaceDefinition : Grammar :=
  node .interfaceDefinition
    (inOrder [word .interface, name, optionalDirectives true, fieldsDefinition])

/-- A union and its members. -/
def unionDefinition : Grammar :=
  node .unionDefinition
    (inOrder [word .union, name, optionalDirectives true, mark .equals,
      node .members (barred (node .member name))])

/-- An enumeration and its values. -/
def enumDefinition : Grammar :=
  node .enumDefinition
    (inOrder [word .enum, name, optionalDirectives true,
      between .braceOpen .braceClose (node .enumValue (inOrder [name, optionalDirectives true]))])

/-- An input object type. -/
def inputObjectDefinition : Grammar :=
  node .inputObjectDefinition
    (inOrder [word .input, name, optionalDirectives true,
      node .inputFieldsDefinition (between .braceOpen .braceClose inputValueDefinition)])

/-- An extension of an object type. -/
def extendDefinition : Grammar :=
  node .extendDefinition (inOrder [word .extend, typeDefinition])

/-- A directive and where it may stand. -/
def directiveDefinition : Grammar :=
  node .directiveDefinition
    (inOrder [word .directive, mark .atSign, name, optionalArgumentsDefinition, word .on,
      node .locations (barred (node .location name))])

/-- A definition of a schema document. -/
def typeSystemDefinition : Grammar :=
  choice (.next (.keyword .schema)) schemaDefinition
    (choice (.next (.keyword .scalar)) scalarDefinition
      (choice (.next (.keyword .type)) typeDefinition
        (choice (.next (.keyword .interface)) interfaceDefinition
          (choice (.next (.keyword .union)) unionDefinition
            (choice (.next (.keyword .enum)) enumDefinition
              (choice (.next (.keyword .input)) inputObjectDefinition
                (choice (.next (.keyword .extend)) extendDefinition
                  (choice (.next (.keyword .directive)) directiveDefinition
                    (fail
                      ("schema or scalar or type or interface or union or enum or input or " ++
                        "extend or directive"))))))))))

/-- A schema document, up to the end of the text. -/
def typeSystemDocument : Grammar := many (.nextNot (.kind .eof)) typeSystemDefinition

end GraphQL.Grammar
