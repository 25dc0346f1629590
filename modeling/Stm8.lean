import Stm8.Assembler
import Stm8.BigEndian
import Stm8.CodeBuffer
import Stm8.Embed.Expansion
import Stm8.Embed.Invocation
import Stm8.Embed.Literal
import Stm8.Embed.Token
import Stm8.Encoding
import Stm8.Form
import Stm8.Form.Catalog
import Stm8.Form.Selection
import Stm8.Form.Table
import Stm8.Image
import Stm8.Image.Listing
import Stm8.Instruction
import Stm8.Instruction.Printer
import Stm8.Line
import Stm8.Memory
import Stm8.Mode
import Stm8.Number
import Stm8.Operand
import Stm8.Operand.Parser
import Stm8.Problem
import Stm8.Program
import Stm8.Quantity
import Stm8.Register
import Stm8.Relocation
import Stm8.Relocation.Window
import Stm8.Session
import Stm8.Span
import Stm8.Sweep
import Stm8.Text.Ascii
import Stm8.Text.Blank
import Stm8.Text.Digits
import Stm8.Text.Slice
import Stm8.Text.Width
import Stm8.Value
import Stm8.Value.Parser
import Stm8.Proofs.BigEndian
import Stm8.Proofs.Form.Index
import Stm8.Proofs.Form.Opcodes
import Stm8.Proofs.Success
import Stm8.Proofs.Encoding.Layout
import Stm8.Proofs.Encoding.BitNumber
import Stm8.Proofs.Instruction.Decoding
import Stm8.Proofs.Instruction.RoundTrip
import Stm8.Proofs.Text.Digits
import Stm8.Proofs.Value.Spelling
import Stm8.Proofs.Operand.Spelling
import Stm8.Proofs.Instruction.Operands
import Stm8.Proofs.Form.Shortening
import Stm8.Proofs.Instruction.Decoded
import Stm8.Proofs.Instruction.Selection
import Stm8.Proofs.Instruction.Reencoding
import Stm8.Proofs.Encoding.Settling
import Stm8.Proofs.Assembler.Pieces
import Stm8.Proofs.Assembler.Running
import Stm8.Proofs.Assembler.Linking
import Stm8.Proofs.Program.Chunks
import Stm8.Proofs.Instruction.ReadBack
import Stm8.Proofs.Program.Correctness
import Stm8.Proofs.Line.Parsing
import Stm8.Proofs.Line.Source
import Stm8.Proofs.Sweep
import Stm8.Proofs.Instruction.Display
import Stm8.Proofs.Instruction.Named
import Stm8.Proofs.Program.Reassembly
import Stm8.Proofs.Encoding.Fitting
import Stm8.Proofs.Encoding.Priority
import Stm8.Proofs.Assembler.Invariants
import Stm8.Proofs.Encoding.Pending
import Stm8.Proofs.Assembler.Handover
import Stm8.Proofs.Relocation.Rounds
import Stm8.Proofs.Assembler.Blame
import Stm8.Proofs.Assembler.Unseen
import Stm8.Proofs.Assembler.Order
import Stm8.Proofs.Sweep.Partition
import Stm8.Proofs.Program.Data
import Stm8.Proofs.Assembler.Rebasing
import Stm8.Proofs.Operand.Text
import Stm8.Proofs.Encoding.Places
import Stm8.Proofs.Assembler.Builder
import Stm8.Proofs.Operand.Bounds
import Stm8.Proofs.Assembler.Bounds
import Stm8.Proofs.Assembler.Uses
import Stm8.Proofs.Program.Accounting
import Stm8.Proofs.Embed.Literal
import Stm8.Proofs.Embed.Invocation
import Stm8.Proofs.Embed.Expansion
import Stm8.Proofs.Encoding.Exactness
import Stm8.Proofs.Relocation.Exactness
import Stm8.Proofs.Encoding.Substitution
import Stm8.Proofs.Instruction.Fetching
import Stm8.Proofs.Assembler.Labels
import Stm8.Proofs.Line.Labels
import Stm8.Proofs.Value.Numerals
import Stm8.Proofs.Program.References
import Stm8.Proofs.Text.Padding
import Stm8.Proofs.Operand.Grammar
import Stm8.Proofs.Assembler.Moving
import Stm8.Proofs.Assembler.Rejections
import Stm8.Proofs.Relocation.Windows
import Stm8.Proofs.Value.Sums
import Stm8.Proofs.Line.Cutting
import Stm8.Proofs.Line.Splitting
import Stm8.Proofs.Assembler.Stretches
import Stm8.Proofs.Image.Rows
import Stm8.Proofs.Program.Listing
import Stm8.Proofs.Number.Grammar
import Stm8.Proofs.Text.Radix
import Stm8.Proofs.Embed.Denotation
import Stm8.Proofs.Embed.Escapes
