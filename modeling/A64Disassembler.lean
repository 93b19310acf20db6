import A64Disassembler.Main
import A64Disassembler.Proofs.Effect.DataProcessing
import A64Disassembler.Proofs.Effect.LoadStore
import A64Disassembler.Proofs.Encoding.Lookup
import A64Disassembler.TestFile.Layout
import A64Disassembler.TestFile.Runner
import A64Disassembler.Proofs.Host.LineDiff
import A64Disassembler.Proofs.Decode.Checked
import A64Disassembler.Proofs.Decode.Total
import A64Disassembler.Proofs.Effect.Analysis
import A64Disassembler.Proofs.Listing.Segments
import A64Disassembler.Proofs.Listing.Text
import A64Disassembler.Proofs.Listing.Headers
import A64Disassembler.Proofs.Bits.Value
import A64Disassembler.Proofs.Encoding.Mask
import A64Disassembler.Proofs.Decode.Absolute
import A64Disassembler.Proofs.Decode.Lossless
import A64Disassembler.Proofs.Fault
import A64Disassembler.Proofs.Text.Numeral
import A64Disassembler.Proofs.TestFile.Reader
import A64Disassembler.Proofs.Command.Window
import A64Disassembler.Proofs.Effect.ControlFlow
import A64Disassembler.Proofs.Session
import A64Disassembler.Proofs.Listing.Pieces
import A64Disassembler.Proofs.Text.Words
import A64Disassembler.Proofs.TestFile.Line
import A64Disassembler.Proofs.Effect.Names
import A64Disassembler.Proofs.Text.Plain
import A64Disassembler.Proofs.TestFile.OwnOutput
import A64Disassembler.Proofs.Encoding.Overlap
import A64Disassembler.Proofs.Listing.Aliases
import A64Disassembler.Proofs.TestFile.File
import A64Disassembler.Proofs.Expr.NormalForm
import A64Disassembler.Proofs.Decode.Bitmask
import A64Disassembler.Proofs.Decode.Register31
import A64Disassembler.Proofs.Effect.OperandValue
import A64Disassembler.Proofs.Listing.Zeroes
import A64Disassembler.Proofs.Expr.Text
import A64Disassembler.Proofs.Insn.Text
import A64Disassembler.Proofs.Expr.Externals
import A64Disassembler.Proofs.Binding
import A64Disassembler.Proofs.Cursor
import A64Disassembler.Proofs.TestFile.Layout
import A64Disassembler.Proofs.Encoding.Derivation
import A64Disassembler.Proofs.Decode.Dependence
import A64Disassembler.Proofs.TestFile.Numbering
