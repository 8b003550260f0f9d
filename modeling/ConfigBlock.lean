import ConfigBlock.Source.CharClass
import ConfigBlock.Source.WhiteSpace
import ConfigBlock.Source.Position
import ConfigBlock.Source.Cursor
import ConfigBlock.Report.Problem
import ConfigBlock.Report.Diagnostic
import ConfigBlock.Report.Outcome
import ConfigBlock.Parser
import ConfigBlock.Number.Double
import ConfigBlock.Number.Text
import ConfigBlock.Number.Shortest
import ConfigBlock.Number.Positional
import ConfigBlock.Value.Basic
import ConfigBlock.Value.Literal
import ConfigBlock.Value.Numeral
import ConfigBlock.Value.Reader
import ConfigBlock.Value.Printer
import ConfigBlock.Line.Comment
import ConfigBlock.Line.Closing
import ConfigBlock.Line.Key
import ConfigBlock.Line.Entry
import ConfigBlock.Line.Reader
import ConfigBlock.Block.Basic
import ConfigBlock.Block.Reader
import ConfigBlock.Block.Header
import ConfigBlock.Block.Printer
import ConfigBlock.Block.Trace
import ConfigBlock.Json.Tree
import ConfigBlock.Json.Writer
import ConfigBlock.Json.Reader
import ConfigBlock.Json.Number
import ConfigBlock.Json.Fields
import ConfigBlock.Json.Report
import ConfigBlock.Json.Block
import ConfigBlock.Command
import ConfigBlock.Main
import ConfigBlock.Proofs.Reading
import ConfigBlock.Proofs.Form.Literal
import ConfigBlock.Proofs.LiteralSplit
import ConfigBlock.Proofs.Escaping
import ConfigBlock.Proofs.Form.Numeral
import ConfigBlock.Proofs.Form.Value
import ConfigBlock.Proofs.Form.LineEnd
import ConfigBlock.Proofs.Form.Line
import ConfigBlock.Proofs.Grammar
import ConfigBlock.Proofs.ReadBack
import ConfigBlock.Proofs.Rounding
import ConfigBlock.Proofs.NumeralWord
import ConfigBlock.Proofs.Legible
import ConfigBlock.Proofs.RoundTrip
import ConfigBlock.Proofs.Overflow
import ConfigBlock.Proofs.Reference
import ConfigBlock.Proofs.Failure
import ConfigBlock.Proofs.Locality
import ConfigBlock.Proofs.Surroundings
import ConfigBlock.Proofs.PhysicalLines
import ConfigBlock.Proofs.Progress
import ConfigBlock.Proofs.Series
import ConfigBlock.Proofs.Session
import ConfigBlock.Proofs.Headerless
import ConfigBlock.Proofs.HeaderSearch
import ConfigBlock.Proofs.ReportOrder
import ConfigBlock.Proofs.JsonReadBack
import ConfigBlock.Proofs.BlockJson
import ConfigBlock.Proofs.Display
import ConfigBlock.Proofs.Documentation
import ConfigBlock.Proofs.Tracing
import ConfigBlock.Proofs.Produced
import ConfigBlock.Proofs.JsonFinite
import ConfigBlock.Proofs.Codec
import ConfigBlock.Proofs.Guarded.Machine
import ConfigBlock.Proofs.Guarded.Follows
import ConfigBlock.Proofs.Guarded.Readers
import ConfigBlock.Proofs.Guarded.Safety
