import EdgeDot.Text.Basic
import EdgeDot.Text.Decoding
import EdgeDot.Text.Blank
import EdgeDot.Token.Stream
import EdgeDot.Token.Splitter
import EdgeDot.Token.Words
import EdgeDot.Count
import EdgeDot.Edge
import EdgeDot.Record
import EdgeDot.IoError
import EdgeDot.Sink
import EdgeDot.Dot.Name
import EdgeDot.Dot.Writer
import EdgeDot.Dot.Document
import EdgeDot.Line.Error
import EdgeDot.Line.Source
import EdgeDot.Event
import EdgeDot.Failure
import EdgeDot.Line.Reader
import EdgeDot.Conversion
import EdgeDot.Session
import EdgeDot.FileTree
import EdgeDot.FileConversion
import EdgeDot.CommandLine
import EdgeDot.Main
import EdgeDot.Proofs.Token.Runs
import EdgeDot.Proofs.Text.AsciiClass
import EdgeDot.Proofs.Dot.Names
import EdgeDot.Proofs.Dot.Lexemes
import EdgeDot.Proofs.Dot.RoundTrip
import EdgeDot.Proofs.Token.Listing
import EdgeDot.Proofs.Line.Meaning
import EdgeDot.Proofs.Line.Reading
import EdgeDot.Proofs.Line.Walking
import EdgeDot.Proofs.Conversion.Grammar
import EdgeDot.Proofs.Line.Reads
import EdgeDot.Proofs.Session.Consumption
import EdgeDot.Proofs.Line.Shift
import EdgeDot.Proofs.Session.Restart
import EdgeDot.Proofs.Conversion.Agreement
import EdgeDot.Proofs.Conversion.Capacity
import EdgeDot.Proofs.Conversion.Interruption
import EdgeDot.Proofs.Text.Positions
import EdgeDot.Proofs.Token.ByteSplitter
import EdgeDot.Proofs.Line.Checked
import EdgeDot.Proofs.Line.Marking
import EdgeDot.Proofs.Session.Safety
import EdgeDot.Proofs.Dot.Quoting
import EdgeDot.Proofs.Conversion.Outcome
import EdgeDot.Proofs.Conversion.Options
import EdgeDot.Proofs.Dot.Copies
import EdgeDot.Proofs.Conversion.Verbatim
import EdgeDot.Proofs.Files.Paths
import EdgeDot.Proofs.Files.Conversion
import EdgeDot.Proofs.Files.Frame
import EdgeDot.Proofs.CommandLine.Arguments
import EdgeDot.Proofs.CommandLine.Reporting
import EdgeDot.Proofs.Token.Places
import EdgeDot.Proofs.Token.Spans
import EdgeDot.Proofs.Token.Numerals
import EdgeDot.Proofs.Line.Faults
import EdgeDot.Proofs.Line.Counts
import EdgeDot.Proofs.Line.Texts
import EdgeDot.Proofs.Conversion.Layouts
import EdgeDot.Proofs.Conversion.Blocks
import EdgeDot.Proofs.Session.Errors
import EdgeDot.Proofs.Session.Display
import EdgeDot.Proofs.Dot.Accounting
import EdgeDot.Proofs.Token.Records
import EdgeDot.Proofs.Dot.Bare
import EdgeDot.Proofs.Line.Items
import EdgeDot.Proofs.Session.Iteration
import EdgeDot.Proofs.Conversion.Log
import EdgeDot.Proofs.Conversion.Reached
import EdgeDot.Proofs.CommandLine.Acceptance
