import ShallowParse.Chunker
import ShallowParse.Command.Arguments
import ShallowParse.Command.Run
import ShallowParse.Command.Surroundings
import ShallowParse.Config.Path
import ShallowParse.Config.Value
import ShallowParse.Decimal
import ShallowParse.Decimal.Double
import ShallowParse.Format
import ShallowParse.Glossary
import ShallowParse.Grammar
import ShallowParse.Grammar.Reference
import ShallowParse.Json
import ShallowParse.Json.Lexeme
import ShallowParse.Json.Number
import ShallowParse.Json.Printer
import ShallowParse.Json.Reader
import ShallowParse.Log
import ShallowParse.Main
import ShallowParse.MalformedInput
import ShallowParse.Matcher
import ShallowParse.Notation.Lexeme
import ShallowParse.Notation.Lexer
import ShallowParse.Notation.Line
import ShallowParse.Notation.Rules
import ShallowParse.Notation.TagClass
import ShallowParse.Pattern
import ShallowParse.Pattern.Expression
import ShallowParse.Pattern.Printer
import ShallowParse.Proofs.Chunking.Alike
import ShallowParse.Proofs.Chunking.Completeness
import ShallowParse.Proofs.Chunking.FirstRules
import ShallowParse.Proofs.Chunking.Justification
import ShallowParse.Proofs.Chunking.Marks
import ShallowParse.Proofs.Chunking.Nesting
import ShallowParse.Proofs.Chunking.Reference
import ShallowParse.Proofs.Chunking.Regrouping
import ShallowParse.Proofs.Chunking.Replay
import ShallowParse.Proofs.Chunking.Rewording
import ShallowParse.Proofs.Chunking.Rewriting
import ShallowParse.Proofs.Chunking.Segments
import ShallowParse.Proofs.Chunking.Separation
import ShallowParse.Proofs.Chunking.Warnings
import ShallowParse.Proofs.Command.Lines
import ShallowParse.Proofs.Command.Program
import ShallowParse.Proofs.Grammar.Acceptance
import ShallowParse.Proofs.Grammar.Canonical
import ShallowParse.Proofs.Grammar.Requirements
import ShallowParse.Proofs.Grammar.Warnings
import ShallowParse.Proofs.Json.Lexing
import ShallowParse.Proofs.Json.Printing
import ShallowParse.Proofs.Json.Reading
import ShallowParse.Proofs.Matching.EmptyLast
import ShallowParse.Proofs.Matching.Language
import ShallowParse.Proofs.Matching.Locality
import ShallowParse.Proofs.Matching.SameOrder
import ShallowParse.Proofs.Matching.Ways
import ShallowParse.Proofs.Notation.ClassBodies
import ShallowParse.Proofs.Notation.ClassPrinting
import ShallowParse.Proofs.Notation.ClassReading
import ShallowParse.Proofs.Notation.Derivation
import ShallowParse.Proofs.Notation.LexedText
import ShallowParse.Proofs.Notation.LexemeTexts
import ShallowParse.Proofs.Notation.Lexing
import ShallowParse.Proofs.Notation.LineEnds
import ShallowParse.Proofs.Notation.LineReading
import ShallowParse.Proofs.Notation.OneRule
import ShallowParse.Proofs.Notation.ReadRules
import ShallowParse.Proofs.Notation.Repeatable
import ShallowParse.Proofs.Notation.Reprinting
import ShallowParse.Proofs.Notation.Rereading
import ShallowParse.Proofs.Notation.RuleLines
import ShallowParse.Proofs.Notation.RuleTexts
import ShallowParse.Proofs.Notation.Tiling
import ShallowParse.Proofs.Notation.TreeReader
import ShallowParse.Proofs.Outcome
import ShallowParse.Proofs.Pattern.Collapsing
import ShallowParse.Proofs.Pattern.Faults
import ShallowParse.Proofs.Pattern.Language
import ShallowParse.Proofs.Pattern.Matching
import ShallowParse.Proofs.Pattern.Meaning
import ShallowParse.Proofs.Pattern.Nesting
import ShallowParse.Proofs.Pattern.Parts
import ShallowParse.Proofs.Pattern.RoundTrip
import ShallowParse.Proofs.Pattern.Shortest
import ShallowParse.Proofs.Pattern.Ways
import ShallowParse.Proofs.Regex.Assembly
import ShallowParse.Proofs.Regex.Factoring
import ShallowParse.Proofs.Regex.Graph
import ShallowParse.Proofs.Regex.Lookahead
import ShallowParse.Proofs.Regex.Matching
import ShallowParse.Proofs.Regex.NormalForm
import ShallowParse.Proofs.Regex.Paths
import ShallowParse.Proofs.Regex.Places
import ShallowParse.Proofs.Regex.Preference
import ShallowParse.Proofs.Regex.Repetition
import ShallowParse.Proofs.Regex.Steadiness
import ShallowParse.Proofs.Regex.Ways
import ShallowParse.Proofs.Rows
import ShallowParse.Proofs.Settings.Entries
import ShallowParse.Proofs.Symbols.Encoding
import ShallowParse.Proofs.Symbols.Following
import ShallowParse.Proofs.Tagged.Completeness
import ShallowParse.Proofs.Tagged.Items
import ShallowParse.Proofs.Tagged.Json
import ShallowParse.Proofs.Tagged.Slashed
import ShallowParse.Proofs.Text.ByteOrder
import ShallowParse.Proofs.Text.Bytes
import ShallowParse.Proofs.Text.Digits
import ShallowParse.Proofs.Text.Lines
import ShallowParse.Proofs.Text.Sorted
import ShallowParse.Proofs.Text.Spelling
import ShallowParse.Proofs.Text.Stretches
import ShallowParse.Proofs.Text.Words
import ShallowParse.Proofs.Tree.Addresses
import ShallowParse.Proofs.Tree.Brackets
import ShallowParse.Proofs.Tree.Descendants
import ShallowParse.Proofs.Tree.Height
import ShallowParse.Proofs.Tree.Json
import ShallowParse.Proofs.Tree.Outline
import ShallowParse.Proofs.Tree.Places
import ShallowParse.Proofs.Tree.Preorder
import ShallowParse.Proofs.Tree.Rewording
import ShallowParse.Proofs.Tree.Shapes
import ShallowParse.Regex
import ShallowParse.Regex.Assembly
import ShallowParse.Regex.Search
import ShallowParse.Regex.Size
import ShallowParse.Regex.Thread
import ShallowParse.Rule
import ShallowParse.Session
import ShallowParse.Settings
import ShallowParse.Symbols
import ShallowParse.Tagged.Items
import ShallowParse.Tagged.Json
import ShallowParse.Tagged.Slashed
import ShallowParse.Text.Blank
import ShallowParse.Text.Bytes
import ShallowParse.Text.Digits
import ShallowParse.Text.Invisible
import ShallowParse.Text.Quoted
import ShallowParse.Text.Sorted
import ShallowParse.Toml.Date
import ShallowParse.Toml.Lexeme
import ShallowParse.Toml.Quoted
import ShallowParse.Toml.Reader
import ShallowParse.Toml.Scalar
import ShallowParse.Toml.Table
import ShallowParse.Tree
import ShallowParse.Tree.Check
import ShallowParse.Tree.Json
import ShallowParse.Tree.Outline
import ShallowParse.Tree.Walk
import ShallowParse.Tree.Yaml
import ShallowParse.Yaml.Resolution
import ShallowParse.Yaml.Scalar
