import Phrasebook.Alphabet
import Phrasebook.Bundle
import Phrasebook.Cache
import Phrasebook.Catalogue
import Phrasebook.Command.Check
import Phrasebook.Command.Coverage
import Phrasebook.Command.Format
import Phrasebook.Command.Invocation
import Phrasebook.Command.Options
import Phrasebook.Command.Outcome
import Phrasebook.Command.Run
import Phrasebook.Command.Table
import Phrasebook.Command.Width
import Phrasebook.Diagnostic
import Phrasebook.FileTree
import Phrasebook.Formatting.Fault
import Phrasebook.Formatting.Rendering
import Phrasebook.Formatting.Scope
import Phrasebook.Formatting.Value
import Phrasebook.Keyed
import Phrasebook.Layout
import Phrasebook.Locale.Builtin
import Phrasebook.Locale.Data
import Phrasebook.Locale.Formatters
import Phrasebook.Locale.NumberFormat
import Phrasebook.Locale.Plural
import Phrasebook.Locale.Tag
import Phrasebook.Main
import Phrasebook.Number.Binary
import Phrasebook.Number.Decimal
import Phrasebook.Number.Literal
import Phrasebook.Outline
import Phrasebook.Position
import Phrasebook.Proofs.Catalogue.Fallback
import Phrasebook.Proofs.Catalogue.References
import Phrasebook.Proofs.Catalogue.Replay
import Phrasebook.Proofs.Diagnostic
import Phrasebook.Proofs.Formatting.Adequacy
import Phrasebook.Proofs.Formatting.Closure
import Phrasebook.Proofs.Formatting.Dependence
import Phrasebook.Proofs.Formatting.Framing
import Phrasebook.Proofs.Formatting.Lockstep
import Phrasebook.Proofs.Formatting.Meaning
import Phrasebook.Proofs.Formatting.Report
import Phrasebook.Proofs.Formatting.Reuse
import Phrasebook.Proofs.Keyed
import Phrasebook.Proofs.Layout
import Phrasebook.Proofs.Layout.Content
import Phrasebook.Proofs.Layout.Margin
import Phrasebook.Proofs.Outline
import Phrasebook.Proofs.Position
import Phrasebook.Proofs.Rebuilding
import Phrasebook.Proofs.Resource.Attributes
import Phrasebook.Proofs.Resource.Occurrence
import Phrasebook.Proofs.Resource.WellFormed
import Phrasebook.Proofs.Shared
import Phrasebook.Proofs.Source.Advance
import Phrasebook.Proofs.Source.CarriageReturns
import Phrasebook.Proofs.Source.Combinators
import Phrasebook.Proofs.Source.Concatenation
import Phrasebook.Proofs.Source.Grammar
import Phrasebook.Proofs.Source.LineEndings
import Phrasebook.Proofs.Source.Lookahead
import Phrasebook.Proofs.Source.Modes
import Phrasebook.Proofs.Source.PatternLines
import Phrasebook.Proofs.Source.Provenance
import Phrasebook.Proofs.Source.Reading
import Phrasebook.Proofs.Source.Recovery
import Phrasebook.Proofs.Source.RoundTrip
import Phrasebook.Proofs.Source.Segments
import Phrasebook.Proofs.Source.Soundness
import Phrasebook.Resource
import Phrasebook.Shared
import Phrasebook.Source.Document
import Phrasebook.Source.Entry
import Phrasebook.Source.Error
import Phrasebook.Source.Lexeme
import Phrasebook.Source.Parser
import Phrasebook.Source.Pattern
import Phrasebook.Source.Writer
import Phrasebook.Suggestion
import Phrasebook.Tree
import Phrasebook.Proofs.Formatting.Stepwise
import Phrasebook.Proofs.Formatting.Caching
import Phrasebook.Proofs.Formatting.Cycles
import Phrasebook.Proofs.Formatting.DepthLimit
import Phrasebook.Proofs.Formatting.MissingArguments
import Phrasebook.Proofs.Catalogue.EntryPoints
import Phrasebook.Proofs.Bundle
import Phrasebook.Proofs.Catalogue.Chain
import Phrasebook.Proofs.Formatting.VariantOrder
import Phrasebook.Proofs.Number.Nearest
import Phrasebook.Proofs.Number.Written
import Phrasebook.Proofs.Formatting.NumericKeys
import Phrasebook.Proofs.Source.Attachment
import Phrasebook.Proofs.Source.Nesting
import Phrasebook.Proofs.Source.Locality
import Phrasebook.Proofs.Source.BareValue
import Phrasebook.Proofs.Source.StringLiteral
import Phrasebook.Proofs.Command.Verdict
import Phrasebook.Proofs.EditDistance
import Phrasebook.Proofs.Source.ReferenceText
import Phrasebook.Proofs.Suggestion
import Phrasebook.Proofs.Suggestion.Ranking
import Phrasebook.Proofs.Cache
import Phrasebook.Proofs.Number.Canonical
