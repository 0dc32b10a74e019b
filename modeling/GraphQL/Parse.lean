import GraphQL.Document
import GraphQL.Event
import GraphQL.FileSet
import GraphQL.Parser
import GraphQL.Schema

/-!
# Parsing a text

Parsing registers the text as a new file of a set and then reads it by one of the two grammars.
The file stays registered if the text is rejected, with the line starts found up to the token
that did not fit. Positions in the tree and in the error are those of the new file.
-/

namespace GraphQL

/-- What parsing leaves behind. -/
structure Outcome (ε α : Type) where
  /-- What the text means, or why it means nothing. -/
  result : Except ε α
  /-- The set with the new files in it. -/
  files : FileSet
  /-- What there is to log. -/
  events : List Event

namespace Outcome

/-- The same outcome with the meaning in another form. -/
def map {ε α β : Type} (f : α → β) (o : Outcome ε α) : Outcome ε β :=
  { result := o.result.map f, files := o.files, events := o.events }

end Outcome

/-- The grammar of a kind of source. -/
def SourceKind.grammar : SourceKind → Grammar
  | document => .executableDocument
  | schema => .typeSystemDocument

/-- Reads the definitions of a text, which becomes a file of the set. A text without a file name
gets the empty name. -/
def parseDefinitions (kind : SourceKind) (source : String) (fileName : Option String)
    (options : ParserOptions) (files : FileSet) :
    Except Violation (Outcome ParseError (List Tree)) := do
  let name := fileName.getD ""
  let (file, files) ← files.addFile name source.utf8ByteSize
  let opening : List Event := [.registered name file.size file.base, .parsing kind name]
  let start : ParserState := { stream := { lexer := Lexer.ofSource source file } }
  match EStateM.run (Parser.run options.maxDepth source.length kind.grammar) start with
  | .ok definitions s =>
    return { result := .ok definitions
             files := files.modifyLast fun _ => s.stream.lexer.lines
             events := opening ++ [.parsed name] }
  | .error (.rejected e) s =>
    return { result := .error e
             files := files.modifyLast fun _ => s.stream.lexer.lines
             events := opening ++ [.rejected name e] }
  | .error (.broken v) _ => throw v

/-- Parses an executable document. -/
def Document.parse (source : String) (fileName : Option String) (options : ParserOptions)
    (files : FileSet) : Except Violation (Outcome ParseError Document) :=
  (parseDefinitions .document source fileName options files).map (·.map Document.mk)

/-- Parses a schema document. -/
def Schema.parse (source : String) (fileName : Option String) (options : ParserOptions)
    (files : FileSet) : Except Violation (Outcome ParseError Schema) :=
  (parseDefinitions .schema source fileName options files).map (·.map Schema.ofDefinitions)

/-- What a text of either kind parses to. -/
inductive Parsed where
  | document (d : Document)
  | schema (s : Schema)
  deriving DecidableEq, Repr

/-- The whole text as one syntax tree. -/
def Parsed.tree : Parsed → Tree
  | document d => d.tree
  | schema s => s.tree

/-- Parses a text of the given kind. -/
def parse (kind : SourceKind) (source : String) (fileName : Option String)
    (options : ParserOptions) (files : FileSet) : Except Violation (Outcome ParseError Parsed) :=
  match kind with
  | .document => (Document.parse source fileName options files).map (·.map .document)
  | .schema => (Schema.parse source fileName options files).map (·.map .schema)

end GraphQL
