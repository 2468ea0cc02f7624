import MacroSweep.Cache.Record
import MacroSweep.Cache.Store
import MacroSweep.Checker.Basic
import MacroSweep.Checker.Directives
import MacroSweep.Checker.Settings
import MacroSweep.Command.Arguments
import MacroSweep.Command.Format
import MacroSweep.Command.Reach
import MacroSweep.Command.Run
import MacroSweep.Command.Switch
import MacroSweep.Condition.Expansion
import MacroSweep.Condition.Lexer
import MacroSweep.Condition.Token
import MacroSweep.Condition.Value
import MacroSweep.Configuration.Basic
import MacroSweep.Configuration.Combinations
import MacroSweep.Configuration.Enumeration
import MacroSweep.Configuration.Forced
import MacroSweep.Digest.Blake3
import MacroSweep.Discovery
import MacroSweep.FileTree.Basic
import MacroSweep.Finding.Basic
import MacroSweep.Finding.Json
import MacroSweep.Finding.Report
import MacroSweep.Finding.Severity
import MacroSweep.Glob
import MacroSweep.Ignore.Pattern
import MacroSweep.Ignore.Rules
import MacroSweep.Ignore.Scope
import MacroSweep.Ignore.Sign
import MacroSweep.Ignore.UserFile
import MacroSweep.Json.Reader
import MacroSweep.Json.Record
import MacroSweep.Json.Value
import MacroSweep.Main
import MacroSweep.Markup.Event
import MacroSweep.Markup.Reference
import MacroSweep.Options.Basic
import MacroSweep.Options.Toml
import MacroSweep.Ordered.Map
import MacroSweep.Ordered.Set
import MacroSweep.Path.Basic
import MacroSweep.Path.Normal
import MacroSweep.Program.Facts
import MacroSweep.Proofs.Agreement
import MacroSweep.Proofs.Aliases
import MacroSweep.Proofs.BlockMarkers
import MacroSweep.Proofs.BlockPairs
import MacroSweep.Proofs.Brackets
import MacroSweep.Proofs.CallArguments
import MacroSweep.Proofs.CharacterLiterals
import MacroSweep.Proofs.Combinations
import MacroSweep.Proofs.CommentOpacity
import MacroSweep.Proofs.CommentOrder
import MacroSweep.Proofs.CommentText
import MacroSweep.Proofs.ConditionNames
import MacroSweep.Proofs.Counts
import MacroSweep.Proofs.Deduplication
import MacroSweep.Proofs.Denotation
import MacroSweep.Proofs.Description
import MacroSweep.Proofs.Dispatch
import MacroSweep.Proofs.Entries
import MacroSweep.Proofs.Errors
import MacroSweep.Proofs.Evaluation
import MacroSweep.Proofs.Expansion
import MacroSweep.Proofs.Facts
import MacroSweep.Proofs.FileTree
import MacroSweep.Proofs.Filtering
import MacroSweep.Proofs.Glob
import MacroSweep.Proofs.Grammar
import MacroSweep.Proofs.IncludeClosure
import MacroSweep.Proofs.InlineLookup
import MacroSweep.Proofs.Instantiation
import MacroSweep.Proofs.Journey
import MacroSweep.Proofs.Json
import MacroSweep.Proofs.Layout
import MacroSweep.Proofs.LineMarkers
import MacroSweep.Proofs.LineParts
import MacroSweep.Proofs.LiteralNames
import MacroSweep.Proofs.Loading
import MacroSweep.Proofs.MarkerGrammar
import MacroSweep.Proofs.Markers
import MacroSweep.Proofs.Nesting
import MacroSweep.Proofs.NestingFindings
import MacroSweep.Proofs.NormalText
import MacroSweep.Proofs.Ordered
import MacroSweep.Proofs.OwnFile
import MacroSweep.Proofs.Path
import MacroSweep.Proofs.Recall
import MacroSweep.Proofs.Record
import MacroSweep.Proofs.RecordMap
import MacroSweep.Proofs.RecordedNames
import MacroSweep.Proofs.Relevance
import MacroSweep.Proofs.Reloading
import MacroSweep.Proofs.ReportOrder
import MacroSweep.Proofs.Resolution
import MacroSweep.Proofs.RoundTrip
import MacroSweep.Proofs.Schedules
import MacroSweep.Proofs.Selection
import MacroSweep.Proofs.SharedStore
import MacroSweep.Proofs.Signature
import MacroSweep.Proofs.Simplified
import MacroSweep.Proofs.Sites
import MacroSweep.Proofs.Sources
import MacroSweep.Proofs.Spelling
import MacroSweep.Proofs.Stages
import MacroSweep.Proofs.Store
import MacroSweep.Proofs.Submission
import MacroSweep.Proofs.Subsets
import MacroSweep.Proofs.Text
import MacroSweep.Proofs.TokenText
import MacroSweep.Proofs.Trace
import MacroSweep.Proofs.Transparency
import MacroSweep.Proofs.Trimming
import MacroSweep.Proofs.UnknownElements
import MacroSweep.Proofs.Utf8
import MacroSweep.Proofs.WarmRun
import MacroSweep.Proofs.Workers
import MacroSweep.Run.Plan
import MacroSweep.Source.Directive
import MacroSweep.Source.Line
import MacroSweep.Source.Names
import MacroSweep.SourceUnit.Basic
import MacroSweep.SourceUnit.Load
import MacroSweep.Suppression.Fault
import MacroSweep.Suppression.Index
import MacroSweep.Suppression.Inline
import MacroSweep.Suppression.Marker
import MacroSweep.Suppression.PlainText
import MacroSweep.Suppression.Registry
import MacroSweep.Suppression.Rule
import MacroSweep.Suppression.Structured
import MacroSweep.Template.Guard
import MacroSweep.Text.Blank
import MacroSweep.Text.Left
import MacroSweep.Text.Lines
import MacroSweep.Text.Numeral
import MacroSweep.Text.Utf8
import MacroSweep.Text.Word
import MacroSweep.Toml.Quoted
import MacroSweep.Toml.Reader
import MacroSweep.Toml.Record
import MacroSweep.Toml.Scalar
import MacroSweep.Toml.Table
import MacroSweep.Toml.Value
import MacroSweep.Walk.CodeNames
import MacroSweep.Walk.Definition
import MacroSweep.Walk.File
import MacroSweep.Walk.Group
