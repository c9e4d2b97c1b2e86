import ThreeAddress.Command.Arguments
import ThreeAddress.Command.Perform
import ThreeAddress.Document.Loader
import ThreeAddress.Document.Printer
import ThreeAddress.ErrorClass
import ThreeAddress.Files
import ThreeAddress.Instruction
import ThreeAddress.Machine.Action
import ThreeAddress.Machine.Fault
import ThreeAddress.Machine.Frames
import ThreeAddress.Machine.Operation
import ThreeAddress.Machine.Run
import ThreeAddress.Machine.Snapshot
import ThreeAddress.Machine.State
import ThreeAddress.Machine.Step
import ThreeAddress.Machine.Stream
import ThreeAddress.Main
import ThreeAddress.Opcode
import ThreeAddress.Operand
import ThreeAddress.Proofs.Document.Attributes
import ThreeAddress.Proofs.Document.Escape
import ThreeAddress.Proofs.Document.Load
import ThreeAddress.Proofs.Document.Meaning
import ThreeAddress.Proofs.Document.Order
import ThreeAddress.Proofs.Document.Reload
import ThreeAddress.Proofs.Document.RoundTrip
import ThreeAddress.Proofs.Document.Tree
import ThreeAddress.Proofs.Document.Words
import ThreeAddress.Proofs.Except
import ThreeAddress.Proofs.Files
import ThreeAddress.Proofs.Instruction
import ThreeAddress.Proofs.Machine.Atomicity
import ThreeAddress.Proofs.Machine.Breaks
import ThreeAddress.Proofs.Machine.Buried
import ThreeAddress.Proofs.Machine.Calls
import ThreeAddress.Proofs.Machine.Comparison
import ThreeAddress.Proofs.Machine.Division
import ThreeAddress.Proofs.Machine.Effect
import ThreeAddress.Proofs.Machine.Execution
import ThreeAddress.Proofs.Machine.Footprint
import ThreeAddress.Proofs.Machine.Forward
import ThreeAddress.Proofs.Machine.Incremental
import ThreeAddress.Proofs.Machine.Ingest
import ThreeAddress.Proofs.Machine.Listing
import ThreeAddress.Proofs.Machine.LostLine
import ThreeAddress.Proofs.Machine.Output
import ThreeAddress.Proofs.Machine.Parallel
import ThreeAddress.Proofs.Machine.Reads
import ThreeAddress.Proofs.Machine.Session
import ThreeAddress.Proofs.Machine.Skipping
import ThreeAddress.Proofs.Machine.Snapshot
import ThreeAddress.Proofs.Machine.Steps
import ThreeAddress.Proofs.Machine.Strings
import ThreeAddress.Proofs.Operand
import ThreeAddress.Proofs.Signature
import ThreeAddress.Proofs.Source.Acceptance
import ThreeAddress.Proofs.Source.FirstBad
import ThreeAddress.Proofs.Source.Grammar
import ThreeAddress.Proofs.Source.Layout
import ThreeAddress.Proofs.Source.RoundTrip
import ThreeAddress.Proofs.Source.WideBlank
import ThreeAddress.Proofs.Source.Word
import ThreeAddress.Proofs.Suite.Cases
import ThreeAddress.Proofs.Suite.Detour
import ThreeAddress.Proofs.Suite.Report
import ThreeAddress.Proofs.Text.Escape
import ThreeAddress.Proofs.Text.EscapeBytes
import ThreeAddress.Proofs.Text.FreeNumeral
import ThreeAddress.Proofs.Text.Numeral
import ThreeAddress.Proofs.Text.Space
import ThreeAddress.Proofs.Xml.Characters
import ThreeAddress.Proofs.Xml.Reference
import ThreeAddress.Proofs.Xml.Token
import ThreeAddress.Proofs.Xml.Tree
import ThreeAddress.Source.Assembly
import ThreeAddress.Source.Word
import ThreeAddress.Suite.Case
import ThreeAddress.Suite.Report
import ThreeAddress.Table
import ThreeAddress.Text.Escape
import ThreeAddress.Text.Numeral
import ThreeAddress.Text.Space
import ThreeAddress.Text.Utf8
import ThreeAddress.Value
import ThreeAddress.Xml.Char
import ThreeAddress.Xml.Namespace
import ThreeAddress.Xml.Reference
import ThreeAddress.Xml.Token
import ThreeAddress.Xml.Tree
