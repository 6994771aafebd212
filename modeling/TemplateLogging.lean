import TemplateLogging.Text.Utf8
import TemplateLogging.Text.Words
import TemplateLogging.Decimal.Shortest
import TemplateLogging.Decimal.Notation
import TemplateLogging.Decimal.Reading
import TemplateLogging.Json.Basic
import TemplateLogging.Json.Printer
import TemplateLogging.Json.Number
import TemplateLogging.Json.Quoted
import TemplateLogging.Json.Parser
import TemplateLogging.Json.Reader
import TemplateLogging.Value.Entries
import TemplateLogging.Value.Basic
import TemplateLogging.Value.Functions
import TemplateLogging.Value.Json
import TemplateLogging.Renaming.Sha256
import TemplateLogging.Renaming.Basic
import TemplateLogging.Expr.Basic
import TemplateLogging.Expr.Source
import TemplateLogging.Expr.Constant
import TemplateLogging.Expr.Json
import TemplateLogging.Fault
import TemplateLogging.Location
import TemplateLogging.Tree.Table
import TemplateLogging.Tree.Kind
import TemplateLogging.Tree.Basic
import TemplateLogging.Tree.Traversal
import TemplateLogging.Tree.Edit
import TemplateLogging.Tree.Source
import TemplateLogging.Tree.Links
import TemplateLogging.Tree.Json
import TemplateLogging.CompilerFault
import TemplateLogging.Visitor
import TemplateLogging.Instrument.Preflight
import TemplateLogging.Instrument.Options
import TemplateLogging.Instrument.Step
import TemplateLogging.Instrument.Basic
import TemplateLogging.Instrument.Json
import TemplateLogging.Logging.Config
import TemplateLogging.Logging.Assign
import TemplateLogging.Directive.NewlineBreaks
import TemplateLogging.Directive.WordBreaks
import TemplateLogging.Directive.Truncate
import TemplateLogging.Directive.EstimatedDirection
import TemplateLogging.Directive.SpanWrap
import TemplateLogging.Sink.Basic
import TemplateLogging.Sink.Writer
import TemplateLogging.Sink.Recorder
import TemplateLogging.Sink.NewlineBreaks
import TemplateLogging.Renaming.Json
import TemplateLogging.Proofs.Rose
import TemplateLogging.Proofs.Supply
import TemplateLogging.Proofs.Contents
import TemplateLogging.Proofs.Branch
import TemplateLogging.Proofs.Lookup
import TemplateLogging.Proofs.Editing
import TemplateLogging.Proofs.Growth
import TemplateLogging.Proofs.Places
import TemplateLogging.Proofs.Rewriting
import TemplateLogging.Proofs.Steps
import TemplateLogging.Proofs.Walking
import TemplateLogging.Proofs.Simulation
import TemplateLogging.Proofs.Reading
import TemplateLogging.Proofs.Contracts
import TemplateLogging.Proofs.Preflight
import TemplateLogging.Proofs.Refusal
import TemplateLogging.Proofs.Erasure
import TemplateLogging.Proofs.Outcome
import TemplateLogging.Proofs.Census
import TemplateLogging.Proofs.Survival
import TemplateLogging.Proofs.Silence
import TemplateLogging.Proofs.Settling
import TemplateLogging.Proofs.Repetition
import TemplateLogging.Proofs.Visits
import TemplateLogging.Proofs.Budget
import TemplateLogging.Proofs.Slices
import TemplateLogging.Proofs.LineBreaks
import TemplateLogging.Proofs.Streaming
import TemplateLogging.Proofs.Markers
import TemplateLogging.Proofs.Scopes
import TemplateLogging.Proofs.JsonTexts
import TemplateLogging.Proofs.Records
import TemplateLogging.Proofs.Storage
import TemplateLogging.Proofs.Linkage
import TemplateLogging.Proofs.Removal
import TemplateLogging.Proofs.Invariants
import TemplateLogging.Proofs.Bridge
import TemplateLogging.Proofs.Copies
import TemplateLogging.Proofs.Construction
import TemplateLogging.Proofs.Locality
import TemplateLogging.Proofs.Assignment
import TemplateLogging.Proofs.Separation
import TemplateLogging.Proofs.Loading
import TemplateLogging.Proofs.Configured
import TemplateLogging.Proofs.Subtrees
import TemplateLogging.Proofs.Numbering
import TemplateLogging.Proofs.Counting
import TemplateLogging.Proofs.Naming
import TemplateLogging.Proofs.Attached
import TemplateLogging.Proofs.Clashes
import TemplateLogging.Proofs.Portions
import TemplateLogging.Proofs.Delegation
import TemplateLogging.Proofs.Failures
import TemplateLogging.Proofs.Hooks
import TemplateLogging.Proofs.Layers
import TemplateLogging.Proofs.Limits
import TemplateLogging.Proofs.Tokens
import TemplateLogging.Proofs.WordBreaks
import TemplateLogging.Proofs.Stretches
import TemplateLogging.Proofs.Markup
import TemplateLogging.Proofs.Resolution
import TemplateLogging.Proofs.ConfigTables
import TemplateLogging.Proofs.Preorder
import TemplateLogging.Proofs.Forest
import TemplateLogging.Proofs.Replacement
import TemplateLogging.Proofs.Splicing
import TemplateLogging.Proofs.Likeness
import TemplateLogging.Proofs.Itinerary
import TemplateLogging.Proofs.Encounters
import TemplateLogging.Proofs.Truncation
import TemplateLogging.Proofs.Pipelines
import TemplateLogging.Proofs.WordOrder
import TemplateLogging.Proofs.Augmentation
import TemplateLogging.Proofs.Moving
import TemplateLogging.Proofs.ShortNames
import TemplateLogging.Proofs.Draining
