import Assembler.Text.Quoted
import Assembler.Text.Record

/-!
# Faults

What can be wrong with a program that is lowered. A fault names the slot, label or opcode by its
text, so that it stands on its own; a failure adds the place of the fault and the program's listing.
-/

namespace Assembler

/-- What is wrong with an instruction or with the program as a whole. -/
inductive Fault where
  | unresolvedSlot (slot : String)
  | slotAllocatedTwice (slot : String)
  | slotReleased (slot : String)
  | releaseOfUnallocated (slot : String)
  | localOutOfFrame (index fixedLocals : UInt32)
  | operandOverflow (index : UInt32)
  | labelPlacedTwice (label : String)
  | unresolvedJump (label : String) (branch : Nat)
  | backwardJump (label : String)
  | unbalancedLoopClose
  | unclosedLoop (count : Nat)
  | operandCountMismatch (opcode : String) (expected actual : Nat)
  | widthMismatch (opcode : String) (expected written : Nat)
  | reservedOpcode (opcode : String)
  | frameSizeMismatch (frameSize index : UInt32)
  | streamLengthMismatch (expected actual : Nat)
  deriving DecidableEq, Inhabited

namespace Fault

/-- The message for a reader. -/
def message : Fault → String
  | unresolvedSlot slot => s!"slot {slot} is used before it is allocated"
  | slotAllocatedTwice slot => s!"slot {slot} is allocated twice"
  | slotReleased slot => s!"slot {slot} is used after it was released"
  | releaseOfUnallocated slot => s!"slot {slot} is released but was never allocated"
  | localOutOfFrame index fixedLocals =>
    s!"local {index} is outside the frame of {fixedLocals} fixed locals"
  | operandOverflow index => s!"operand index {index} does not fit in an operand word"
  | labelPlacedTwice label => s!"label {label} is placed twice"
  | unresolvedJump label branch =>
    s!"jump to label {label} from instruction {branch} is never resolved"
  | backwardJump label =>
    s!"label {label} is placed before its branch, only forward jumps are supported"
  | unbalancedLoopClose => "loop close without a matching loop init"
  | unclosedLoop count => s!"{count} loop(s) not closed"
  | operandCountMismatch opcode expected actual =>
    s!"opcode {opcode} takes {expected} operands, got {actual}"
  | widthMismatch opcode expected written =>
    s!"instruction {opcode} wrote {written} words, expected {expected}"
  | reservedOpcode opcode => s!"opcode {opcode} is reserved to structural instructions"
  | frameSizeMismatch frameSize index => s!"frame size {frameSize} does not cover local {index}"
  | streamLengthMismatch expected actual =>
    s!"code has {actual} words, instructions account for {expected}"

/-- The name of the kind of fault. -/
def kind : Fault → String
  | unresolvedSlot _ => "UnresolvedSlot"
  | slotAllocatedTwice _ => "SlotAllocatedTwice"
  | slotReleased _ => "SlotReleased"
  | releaseOfUnallocated _ => "ReleaseOfUnallocated"
  | localOutOfFrame _ _ => "LocalOutOfFrame"
  | operandOverflow _ => "OperandOverflow"
  | labelPlacedTwice _ => "LabelPlacedTwice"
  | unresolvedJump _ _ => "UnresolvedJump"
  | backwardJump _ => "BackwardJump"
  | unbalancedLoopClose => "UnbalancedLoopClose"
  | unclosedLoop _ => "UnclosedLoop"
  | operandCountMismatch _ _ _ => "OperandCountMismatch"
  | widthMismatch _ _ _ => "WidthMismatch"
  | reservedOpcode _ => "ReservedOpcode"
  | frameSizeMismatch _ _ => "FrameSizeMismatch"
  | streamLengthMismatch _ _ => "StreamLengthMismatch"

/-- The fields of a fault, with their names. -/
def fields : Fault → List (String × String)
  | unresolvedSlot slot | slotAllocatedTwice slot | slotReleased slot | releaseOfUnallocated slot =>
    [("slot", Text.quoted slot)]
  | localOutOfFrame index fixedLocals =>
    [("index", toString index), ("fixed_locals", toString fixedLocals)]
  | operandOverflow index => [("index", toString index)]
  | labelPlacedTwice label | backwardJump label => [("label", Text.quoted label)]
  | unresolvedJump label branch => [("label", Text.quoted label), ("branch", toString branch)]
  | unbalancedLoopClose => []
  | unclosedLoop count => [("count", toString count)]
  | operandCountMismatch opcode expected actual =>
    [("opcode", Text.quoted opcode), ("expected", toString expected), ("actual", toString actual)]
  | widthMismatch opcode expected written =>
    [("opcode", Text.quoted opcode), ("expected", toString expected), ("written", toString written)]
  | reservedOpcode opcode => [("opcode", Text.quoted opcode)]
  | frameSizeMismatch frameSize index =>
    [("frame_size", toString frameSize), ("index", toString index)]
  | streamLengthMismatch expected actual =>
    [("expected", toString expected), ("actual", toString actual)]

/-- The fault by its structure. -/
def dump (f : Fault) : String :=
  Text.record f.kind f.fields

end Fault

/-- Why a program was not lowered: an instruction is at fault, or the program as a whole. -/
inductive Failure where
  | instruction (index : Nat) (listing : String) (fault : Fault)
  | finalize (listing : String) (fault : Fault)
  deriving DecidableEq, Inhabited

namespace Failure

/-- What is wrong. -/
def fault : Failure → Fault
  | instruction _ _ fault | finalize _ fault => fault

/-- The text of the program. -/
def listing : Failure → String
  | instruction _ listing _ | finalize listing _ => listing

/-- The instruction at fault. -/
def index? : Failure → Option Nat
  | instruction index _ _ => some index
  | finalize _ _ => none

/-- The name of the kind of failure. -/
def kind : Failure → String
  | instruction _ _ _ => "Instruction"
  | finalize _ _ => "Finalize"

/-- The message for a reader. -/
def message : Failure → String
  | instruction index listing fault =>
    s!"failed to write instruction {index} of {listing}: {fault.message}"
  | finalize listing fault => s!"failed to write {listing}: {fault.message}"

/-- The failure by its structure. -/
def dump : Failure → String
  | instruction index listing fault =>
    Text.record "Instruction"
      [("index", toString index), ("listing", Text.quoted listing), ("source", fault.dump)]
  | finalize listing fault =>
    Text.record "Finalize" [("listing", Text.quoted listing), ("source", fault.dump)]

end Failure

end Assembler
