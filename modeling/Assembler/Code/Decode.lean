import Assembler.Code.Basic

/-!
# Decoding

An instruction can be decoded at any offset that holds the word of an opcode and has room for its
operands. The walk over a code starts at its first word and goes from each instruction to the next,
up to the first word where none can be decoded.
-/

namespace Assembler

/-- An instruction read back from code. -/
structure Decoded where
  offset : Nat
  opcode : Opcode
  operands : List UInt32
  deriving DecidableEq, Inhabited

/-- The operand that is a code address. -/
def Decoded.address? (d : Decoded) : Option UInt32 :=
  d.opcode.address?.bind (d.operands[·]?)

namespace Code

/-- The instruction at an offset. -/
def decodeAt? (c : Code) (offset : Nat) : Option Decoded :=
  (c.opcodeAt? offset).bind fun op =>
    if offset + op.width ≤ c.size then
      some ⟨offset, op, (c.words.extract (offset + 1) (offset + op.width)).toList⟩
    else none

theorem lt_size_of_decodeAt? {c : Code} {offset : Nat} {d : Decoded}
    (h : c.decodeAt? offset = some d) : offset < c.size := by
  unfold decodeAt? at h
  obtain ⟨op, hop, -⟩ := Option.bind_eq_some_iff.1 h
  exact lt_size_of_opcodeAt? hop

/-- The instructions from an offset on. -/
def decodedFrom (c : Code) (offset : Nat) : List Decoded :=
  match _h : c.decodeAt? offset with
  | none => []
  | some d => d :: c.decodedFrom (offset + d.opcode.width)
termination_by c.size - offset
decreasing_by
  have := lt_size_of_decodeAt? _h
  simp only [Opcode.width]
  omega

/-- The instructions of the code. -/
def decoded (c : Code) : List Decoded :=
  c.decodedFrom 0

/-- The opcodes of the code. -/
def opcodes (c : Code) : List Opcode :=
  c.decoded.map Decoded.opcode

/-- The code addresses among the operands, in order. -/
def addresses (c : Code) : List UInt32 :=
  c.decoded.filterMap Decoded.address?

theorem decodedFrom_of_none {c : Code} {offset : Nat} (h : c.decodeAt? offset = none) :
    c.decodedFrom offset = [] := by
  rw [decodedFrom]
  split <;> simp_all

theorem decodedFrom_of_some {c : Code} {offset : Nat} {d : Decoded}
    (h : c.decodeAt? offset = some d) :
    c.decodedFrom offset = d :: c.decodedFrom (offset + d.opcode.width) := by
  rw [decodedFrom]
  split <;> simp_all

end Code

end Assembler
