import GraphQL.ParseError
import GraphQL.Text.Quoted

/-!
# Events

What the library has done on the way to an answer, for a log. Events do not influence any answer.
-/

namespace GraphQL

/-- How much attention an event deserves. -/
inductive Level where
  | trace | debug | warn
  deriving DecidableEq, Repr, Inhabited

/-- The two kinds of source text. -/
inductive SourceKind where
  /-- Operations and fragments. -/
  | document
  /-- Definitions of a type system. -/
  | schema
  deriving DecidableEq, Repr, Inhabited

/-- The word for a kind of source. -/
def SourceKind.word : SourceKind → String
  | document => "document"
  | schema => "schema"

/-- Something worth a line in a log. -/
inductive Event where
  /-- A file was given its range of positions. -/
  | registered (name : String) (size base : Nat)
  /-- A parse started. -/
  | parsing (kind : SourceKind) (name : String)
  /-- A parse succeeded. -/
  | parsed (name : String)
  /-- A parse failed. -/
  | rejected (name : String) (error : ParseError)
  /-- The sources of a set are parsed one by one. -/
  | parsingAll (kind : SourceKind) (count : Nat)
  /-- A path is searched for sources. -/
  | scanning (path : String)
  /-- A directory was visited. -/
  | passedNonFile (path : String)
  /-- A file was found whose extension matches. -/
  | found (path : String)
  /-- A file was found whose extension does not match. -/
  | passedFile (path : String)
  /-- A file is loaded because it was asked for, although its extension does not match. -/
  | unmatched (path : String) (extensions : List String)
  deriving DecidableEq, Repr, Inhabited

namespace Event

/-- The level of an event. -/
def level : Event → Level
  | registered .. | rejected .. | parsingAll .. | scanning .. => .debug
  | parsing .. | parsed .. | passedNonFile .. | found .. | passedFile .. => .trace
  | unmatched .. => .warn

/-- The extensions as a message shows them. -/
def extensionList (extensions : List String) : String :=
  ", ".intercalate (extensions.map fun e => s!"\x60.{e}\x60")

/-- The text of an event. -/
def message : Event → String
  | registered name size base =>
    s!"Registered file {Text.quoted name} ({size} bytes) at base {base}."
  | parsing kind name => s!"Parsing {kind.word} {Text.quoted name}."
  | parsed name => s!"Finished parsing {Text.quoted name}."
  | rejected name error => s!"Failed to parse {Text.quoted name}: {error.message}"
  | parsingAll kind count => s!"Parsing {count} {kind.word} sources."
  | scanning path => s!"Scanning {Text.quoted path} for GraphQL sources..."
  | passedNonFile path => s!"Skipping non-file: {Text.quoted path}."
  | found path => s!"Found file at {Text.quoted path}."
  | passedFile path => s!"Skipping non-GraphQL file: {Text.quoted path}."
  | unmatched path extensions =>
    s!"Loading {Text.quoted path} even though it doesn't match any of the configured " ++
      s!"extensions ({extensionList extensions})."

end Event

end GraphQL
