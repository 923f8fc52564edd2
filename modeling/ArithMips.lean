import ArithMips.Main
import ArithMips.Mips.Decode
import ArithMips.Token.Grammar
import ArithMips.Proofs.Lowering
import ArithMips.Proofs.Process
import ArithMips.Proofs.Execution
import ArithMips.Proofs.Encoding
import ArithMips.Proofs.Postorder
import ArithMips.Proofs.Polish
import ArithMips.Proofs.Scan
import ArithMips.Proofs.Grammar
import ArithMips.Proofs.Infix
import ArithMips.Proofs.Space
import ArithMips.Proofs.Spelling
import ArithMips.Proofs.Language
import ArithMips.Proofs.Meaning
import ArithMips.Proofs.Sign
import ArithMips.Proofs.Frame
import ArithMips.Proofs.Layout
import ArithMips.Proofs.Diagnostics
import ArithMips.Proofs.Truncation
import ArithMips.Proofs.Causes
import ArithMips.Proofs.Contribution
import ArithMips.Proofs.Raising
import ArithMips.Proofs.ReadBack
import ArithMips.Proofs.Normalization
import ArithMips.Proofs.Parentheses
import ArithMips.Proofs.Faults
import ArithMips.Proofs.Registers
import ArithMips.Proofs.Lexing
import ArithMips.Proofs.Printing
import ArithMips.Proofs.Concatenation
import ArithMips.Proofs.Declarations
import ArithMips.Proofs.Untouched
import ArithMips.Proofs.Histories
import ArithMips.Proofs.Records
import ArithMips.Proofs.Folding
import ArithMips.Proofs.Listing
import ArithMips.Proofs.Counters
