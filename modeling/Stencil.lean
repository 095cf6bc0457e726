import Stencil.Text.Basic
import Stencil.Text.Blank
import Stencil.Text.Hidden
import Stencil.Text.Quoted
import Stencil.Text.Shown
import Stencil.Text.Position
import Stencil.Diagnostic
import Stencil.Template.Node
import Stencil.Template.Token
import Stencil.Template.Fault
import Stencil.Template.Parse
import Stencil.Interpolation.Segment
import Stencil.Interpolation.Reference
import Stencil.Interpolation.Expression
import Stencil.Normal
import Stencil.Output.Style
import Stencil.Output.Bindings
import Stencil.Output.Markup
import Stencil.Output.Calls
import Stencil.Options.Basic
import Stencil.Component
import Stencil.Decimal.Binary
import Stencil.Decimal.Shortest
import Stencil.Json.Number
import Stencil.Json.Basic
import Stencil.Json.Scalar
import Stencil.Json.Reader
import Stencil.Options.Reader
import Stencil.Text.Runs
import Stencil.Files.Path
import Stencil.Files.Tree
import Stencil.Files.Disk
import Stencil.Command.ComponentName
import Stencil.Command.Failure
import Stencil.Command.Overrides
import Stencil.Command.Build
import Stencil.Command.Arguments
import Stencil.Command.Run
import Stencil.Main
import Stencil.Proofs.Text.Scan
import Stencil.Proofs.Template.Grammar
import Stencil.Proofs.Template.Tokens
import Stencil.Proofs.Template.Recognition
import Stencil.Proofs.Template.WellFormed
import Stencil.Proofs.Template.TagReaders
import Stencil.Proofs.Text.Quoted
import Stencil.Proofs.Interpolation.Markers
import Stencil.Proofs.Preparation
import Stencil.Proofs.Output.TextRuns
import Stencil.Proofs.Output.CallGrammar
import Stencil.Proofs.Output.CallReading
import Stencil.Proofs.Output.Erasure
import Stencil.Proofs.Output.Spans
import Stencil.Proofs.Output.TagNames
import Stencil.Proofs.Output.MarkupTags
import Stencil.Proofs.Output.Hoisting
import Stencil.Proofs.Interpolation.Evaluation
import Stencil.Proofs.Interpolation.Resolution
import Stencil.Proofs.Template.Acceptance
import Stencil.Proofs.Template.Misnaming
import Stencil.Proofs.Command.Atomicity
import Stencil.Proofs.NormalForm
import Stencil.Proofs.Peg
import Stencil.Proofs.Template.Attempts
import Stencil.Proofs.Template.Backtracking
import Stencil.Proofs.Template.Rejection
import Stencil.Proofs.Template.Completion
import Stencil.Proofs.Text.Position
import Stencil.Proofs.Template.Diagnostics
import Stencil.Proofs.Output.SingleLine
import Stencil.Proofs.Output.Indentation
import Stencil.Proofs.Output.AttributeStrings
import Stencil.Proofs.Template.Caret
import Stencil.Proofs.Command.Switches
import Stencil.Proofs.Json.Grammar
import Stencil.Proofs.Json.Numbers
import Stencil.Proofs.Json.Scalars
import Stencil.Proofs.Json.Items
import Stencil.Proofs.Json.Values
import Stencil.Proofs.Options.Settings
import Stencil.Proofs.Options.Assignments
import Stencil.Proofs.Options.Documents
import Stencil.Proofs.Command.FallbackNames
import Stencil.Proofs.Output.BindingRuns
import Stencil.Proofs.Text.Offsets
import Stencil.Proofs.Command.ComponentNames
import Stencil.Proofs.Interpolation.References
