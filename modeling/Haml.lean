import Haml.Text.Visible
import Haml.Token.LogicalLine
import Haml.Expression
import Haml.Interpolation
import Haml.Html.Escape
import Haml.Html.Preserve
import Haml.Html.Doctype
import Haml.Html.Attributes
import Haml.Tag.Reader
import Haml.Block
import Haml.Event
import Haml.Line.Reader
import Haml.Line.Meaning
import Haml.Script.Writer
import Haml.Filter.Builtin
import Haml.Template.Compile
import Haml.Main
import Haml.Proofs.TokenSpans
import Haml.Proofs.OpenElements
import Haml.Proofs.Steps
import Haml.Proofs.Tolerance
import Haml.Proofs.Termination
import Haml.Proofs.CodeBlocks
import Haml.Proofs.Composition
import Haml.Proofs.Nesting
import Haml.Proofs.OutlineLines
import Haml.Proofs.OutlineRun
import Haml.Proofs.FaultIsolation
import Haml.Proofs.LineCount
import Haml.Proofs.LogicalLines
import Haml.Proofs.RefusedLines
import Haml.Proofs.WideRuns
import Haml.Proofs.DiagnosticOrder
import Haml.Proofs.LockstepLines
import Haml.Proofs.LineStarts
import Haml.Proofs.PointPlaces
import Haml.Proofs.SameCode
import Haml.Proofs.LastLineEnd
import Haml.Proofs.LockstepRows
import Haml.Proofs.FinalLineEnd
import Haml.Proofs.Seam
import Haml.Proofs.SeamRows
import Haml.Proofs.SilentComments
import Haml.Proofs.CommentRemoval
import Haml.Proofs.Balance
import Haml.Proofs.ExpressionEnds
import Haml.Proofs.TagHeads
import Haml.Proofs.QuotedText
import Haml.Proofs.RunLines
import Haml.Proofs.BlockLines
import Haml.Proofs.BlockReading
import Haml.Proofs.BlockEntries
import Haml.Proofs.BlockIndentation
import Haml.Proofs.BufferChunks
import Haml.Proofs.MergedAttributes
import Haml.Proofs.AttributeCalls
import Haml.Proofs.AttributeReading
import Haml.Proofs.Regions
import Haml.Proofs.TakingBack
import Haml.Proofs.SelfClosing
import Haml.Proofs.ClosingBraces
import Haml.Proofs.TokenLineEnds
import Haml.Proofs.BlankTemplates
import Haml.Proofs.TagWhiteSpace
import Haml.Proofs.StackMaps
import Haml.Proofs.CharacterReferences
import Haml.Proofs.PreservedBreaks
