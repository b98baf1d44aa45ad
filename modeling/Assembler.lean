import Assembler.Code.Disassembly
import Assembler.Code.Expectation
import Assembler.IndexedPool
import Assembler.Lowering
import Assembler.Workspace
import Assembler.Proofs.Layout
import Assembler.Proofs.Nesting
import Assembler.Proofs.Frames
import Assembler.Proofs.Operands
import Assembler.Proofs.Writing
import Assembler.Proofs.Passes
import Assembler.Proofs.Image
import Assembler.Proofs.Finishing
import Assembler.Proofs.Wrapping
import Assembler.Proofs.Decoding
import Assembler.Proofs.Lifetimes
import Assembler.Proofs.WellFormed
import Assembler.Proofs.Addresses
import Assembler.Proofs.ControlFlow
import Assembler.Proofs.Constants
import Assembler.Proofs.Overflow
import Assembler.Proofs.Stacking
import Assembler.Proofs.Joining
import Assembler.Proofs.Faults
import Assembler.Proofs.Endings
import Assembler.Proofs.Consistency
import Assembler.Proofs.Renaming
import Assembler.Proofs.Paths
import Assembler.Proofs.Occupancy
import Assembler.Proofs.Building
import Assembler.Proofs.Releases
import Assembler.Proofs.StackOrder
import Assembler.Proofs.Widening
import Assembler.Proofs.Pooling
import Assembler.Proofs.Positions
import Assembler.Proofs.Forms
import Assembler.Proofs.Directives
import Assembler.Proofs.Recognition
import Assembler.Proofs.Disassembly
import Assembler.Proofs.Expectations
import Assembler.Proofs.Indexing
import Assembler.Proofs.Tracing
import Assembler.Proofs.Truncation
import Assembler.Proofs.Words
