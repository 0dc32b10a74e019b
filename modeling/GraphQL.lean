import GraphQL.Decimal.Basic
import GraphQL.Decimal.Binary
import GraphQL.Document
import GraphQL.Event
import GraphQL.File
import GraphQL.FileSet
import GraphQL.FileSystem
import GraphQL.FileTree.Basic
import GraphQL.FileTree.Listing
import GraphQL.FileTree.Path
import GraphQL.FileTree.Resolve
import GraphQL.Grammar.Basic
import GraphQL.Grammar.Executable
import GraphQL.Grammar.Name
import GraphQL.Grammar.TypeSystem
import GraphQL.Grammar.Value
import GraphQL.Keyword
import GraphQL.Lexeme.Basic
import GraphQL.Lexeme.Number
import GraphQL.Lexeme.Scan
import GraphQL.Lexeme.StringLiteral
import GraphQL.Lexeme.Trivia
import GraphQL.Lexer
import GraphQL.LineSink
import GraphQL.Literal
import GraphQL.Parse
import GraphQL.ParseError
import GraphQL.Parser
import GraphQL.Pos
import GraphQL.Proofs.Ebnf.Basic
import GraphQL.Proofs.Ebnf.Checks
import GraphQL.Proofs.Ebnf.Derivation
import GraphQL.Proofs.Ebnf.Edges
import GraphQL.Proofs.Ebnf.Opening
import GraphQL.Proofs.Ebnf.Order
import GraphQL.Proofs.Ebnf.Outline
import GraphQL.Proofs.Ebnf.Productions
import GraphQL.Proofs.Ebnf.Renaming
import GraphQL.Proofs.Ebnf.Roles
import GraphQL.Proofs.Ebnf.Shift
import GraphQL.Proofs.Files.Allocation
import GraphQL.Proofs.Files.Growth
import GraphQL.Proofs.Files.LineTable
import GraphQL.Proofs.Files.Loading
import GraphQL.Proofs.Files.Ownership
import GraphQL.Proofs.Lexing.Formatting
import GraphQL.Proofs.Lexing.Joining
import GraphQL.Proofs.Lexing.Lines
import GraphQL.Proofs.Lexing.Literals
import GraphQL.Proofs.Lexing.Numbers
import GraphQL.Proofs.Lexing.Numerals
import GraphQL.Proofs.Lexing.Partition
import GraphQL.Proofs.Lexing.Placement
import GraphQL.Proofs.Lexing.Reporting
import GraphQL.Proofs.Lexing.Scan
import GraphQL.Proofs.Lexing.Sequence
import GraphQL.Proofs.Lexing.Slices
import GraphQL.Proofs.Lexing.Strings
import GraphQL.Proofs.Lexing.Writing
import GraphQL.Proofs.Parsing.Constants
import GraphQL.Proofs.Parsing.Definitions
import GraphQL.Proofs.Parsing.Errors
import GraphQL.Proofs.Parsing.Extent
import GraphQL.Proofs.Parsing.Formatting
import GraphQL.Proofs.Parsing.Grouping
import GraphQL.Proofs.Parsing.Language
import GraphQL.Proofs.Parsing.Limit
import GraphQL.Proofs.Parsing.Neighbours
import GraphQL.Proofs.Parsing.Nesting
import GraphQL.Proofs.Parsing.Outcome
import GraphQL.Proofs.Parsing.Positions
import GraphQL.Proofs.Parsing.Relocation
import GraphQL.Proofs.Parsing.Renaming
import GraphQL.Proofs.Parsing.Rows
import GraphQL.Proofs.Parsing.Safety
import GraphQL.Proofs.Parsing.Sources
import GraphQL.Proofs.Parsing.Spans
import GraphQL.Proofs.Parsing.Stability
import GraphQL.Proofs.Parsing.Termination
import GraphQL.Proofs.Parsing.Tour
import GraphQL.Proofs.Parsing.Values
import GraphQL.Proofs.Parsing.Walk
import GraphQL.Proofs.Reading.Adequacy
import GraphQL.Proofs.Reading.Calls
import GraphQL.Proofs.Reading.Completeness
import GraphQL.Proofs.Reading.Completion
import GraphQL.Proofs.Reading.Constancy
import GraphQL.Proofs.Reading.Depth
import GraphQL.Proofs.Reading.Descent
import GraphQL.Proofs.Reading.Greedy
import GraphQL.Proofs.Reading.Lifted
import GraphQL.Proofs.Reading.Moved
import GraphQL.Proofs.Reading.Nesting
import GraphQL.Proofs.Reading.Progress
import GraphQL.Proofs.Reading.Relation
import GraphQL.Proofs.Reading.Requests
import GraphQL.Proofs.Reading.Safety
import GraphQL.Proofs.Reading.Soundness
import GraphQL.Proofs.Reading.Stream
import GraphQL.Proofs.Reading.Tidy
import GraphQL.Schema
import GraphQL.SourceSet
import GraphQL.Text.Printable
import GraphQL.Text.Quoted
import GraphQL.Token
import GraphQL.TokenStream
import GraphQL.Tree.Basic
import GraphQL.Tree.Span
import GraphQL.Tree.View
import GraphQL.Tree.Walk
import GraphQL.Violation
