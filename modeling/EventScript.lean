import EventScript.Assembly
import EventScript.Assembly.Error
import EventScript.Assembly.Statement
import EventScript.Assembly.Symbol
import EventScript.Build
import EventScript.Bytes
import EventScript.CommandLine.Arguments
import EventScript.CommandLine.Assembler
import EventScript.CommandLine.Patcher
import EventScript.Configuration
import EventScript.Dictionary
import EventScript.Error
import EventScript.File.Folder
import EventScript.File.Host
import EventScript.File.Path
import EventScript.FreeSpace
import EventScript.Grammar
import EventScript.Grammar.Builtin
import EventScript.Image
import EventScript.Image.Error
import EventScript.Instruction
import EventScript.Instruction.Error
import EventScript.Instruction.Template
import EventScript.Ips
import EventScript.Job
import EventScript.Json.Reader
import EventScript.Json.Value
import EventScript.Layout
import EventScript.Listing
import EventScript.Main
import EventScript.Manifest
import EventScript.Operand
import EventScript.Patch
import EventScript.PointerTable
import EventScript.Proofs.Assembly.Buffer
import EventScript.Proofs.Assembly.Direct
import EventScript.Proofs.Assembly.Faults
import EventScript.Proofs.Assembly.Framed
import EventScript.Proofs.Assembly.Header
import EventScript.Proofs.Assembly.Meaning
import EventScript.Proofs.Assembly.Move
import EventScript.Proofs.Assembly.Reading
import EventScript.Proofs.Assembly.Records
import EventScript.Proofs.Assembly.References
import EventScript.Proofs.Assembly.Relocatable
import EventScript.Proofs.Assembly.Spacing
import EventScript.Proofs.Assembly.Symbols
import EventScript.Proofs.Assembly.TwoPass
import EventScript.Proofs.Compose
import EventScript.Proofs.Dictionary
import EventScript.Proofs.Encoding
import EventScript.Proofs.Framing
import EventScript.Proofs.FreeSpace
import EventScript.Proofs.Grammar
import EventScript.Proofs.Grammar.Spelling
import EventScript.Proofs.Ips
import EventScript.Proofs.Ips.Apply
import EventScript.Proofs.Job
import EventScript.Proofs.Job.Order
import EventScript.Proofs.Job.Rebuild
import EventScript.Proofs.Job.Tables
import EventScript.Proofs.Listing.Choice
import EventScript.Proofs.Listing.Decode
import EventScript.Proofs.Listing.Recovery
import EventScript.Proofs.Listing.RoundTrip
import EventScript.Proofs.Listing.Script
import EventScript.Proofs.PatchOrder
import EventScript.Proofs.Placing
import EventScript.Proofs.PointerTable
import EventScript.Proofs.PointerTable.WriteBack
import EventScript.Proofs.Records
import EventScript.Proofs.Relocator
import EventScript.Proofs.Relocator.Failure
import EventScript.Proofs.Scan
import EventScript.Proofs.Scan.Number
import EventScript.Proofs.Scan.RoundTrip
import EventScript.Proofs.Source.Comments
import EventScript.Proofs.Source.Directives
import EventScript.Proofs.Source.Lines
import EventScript.Proofs.Source.Meaning
import EventScript.Proofs.Source.Nesting
import EventScript.Proofs.Source.Outcome
import EventScript.Proofs.Source.Plain
import EventScript.Proofs.Stream
import EventScript.Proofs.Text
import EventScript.Proofs.Text.Comment
import EventScript.Proofs.Text.Words
import EventScript.Relocator
import EventScript.Script
import EventScript.Source.Directive
import EventScript.Source.Expansion
import EventScript.Stream.Error
import EventScript.Stream.Reader
import EventScript.Stream.Writer
import EventScript.Text.Blank
import EventScript.Text.Lines
import EventScript.Text.Numeral
import EventScript.Token
import EventScript.Token.Scan
import EventScript.Width
