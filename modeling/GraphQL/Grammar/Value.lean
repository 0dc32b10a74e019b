import GraphQL.Grammar.Name

/-!
# Values and directives

Values come in two forms, with and without variables. Default values have none, and neither have
the arguments of directives in a schema; the restriction carries over to everything inside the
value.
-/

namespace GraphQL.Grammar

/-- A variable reference. -/
def variableReference : Grammar := node .variable (inOrder [mark .dollar, name])

/-- A number or a string. -/
def literal (k : TokenKind) : Grammar := node .literalValue (mark k)

/-- Values between square brackets, possibly none. -/
def listValue (constant : Bool) : Grammar :=
  nested
    (node .listValue
      (inOrder [mark .bracketOpen, many (.nextNot (.kind .bracketClose)) (call (.value constant)),
        mark .bracketClose]))

/-- A name and a value with a colon in between. -/
def namedValue (k : NodeKind) (constant : Bool) : Grammar :=
  node k (inOrder [name, mark .colon, call (.value constant)])

/-- Named values between braces, at least one. -/
def objectValue (constant : Bool) : Grammar :=
  nested
    (node .objectValue (between .braceOpen .braceClose (namedValue .objectField constant)))

/-- What a value may start with. -/
def valueStarts (constant : Bool) : String :=
  (if constant then "" else "$ or ") ++ "INT or FLOAT or STRING or NAME or [ or \x7b"

/-- A value of any form but a variable. -/
def constantBody (constant : Bool) : Grammar :=
  choice (.next (.kind .int)) (literal .int)
    (choice (.next (.kind .float)) (literal .float)
      (choice (.next (.kind .string)) (literal .string)
        (choice (.next (.kind .name)) (node .nameValue name)
          (choice (.next (.kind .bracketOpen)) (listValue constant)
            (choice (.next (.kind .braceOpen)) (objectValue constant)
              (fail (valueStarts constant)))))))

/-- A value. -/
def valueBody (constant : Bool) : Grammar :=
  if constant then constantBody true
  else choice (.next (.kind .dollar)) variableReference (constantBody false)

/-- The default of a variable, an argument or an input field. -/
def optionalDefault : Grammar :=
  whenNext (.kind .equals)
    (node .defaultValue (inOrder [mark .equals, call (.value true)]))

/-- Arguments in parentheses, or nothing. -/
def optionalArguments (constant : Bool) : Grammar :=
  whenNext (.kind .parenOpen)
    (node .arguments (between .parenOpen .parenClose (namedValue .argument constant)))

/-- One directive. -/
def directive (constant : Bool) : Grammar :=
  node .directive (inOrder [mark .atSign, name, optionalArguments constant])

/-- Directives, or nothing. -/
def optionalDirectives (constant : Bool) : Grammar :=
  whenNext (.kind .atSign) (node .directives (oneOrMore (.kind .atSign) (directive constant)))

end GraphQL.Grammar
