import Assembler.Opcode
import Assembler.Pool
import Assembler.Position

/-!
# Code

Lowered code is a stream of words, each with the position of its instruction, the constants that it
refers to, and the number of cells of its frame.
-/

namespace Assembler

/-- Lowered code. -/
structure Code where
  words : Array UInt32 := #[]
  locs : Array Position := #[]
  constants : Pool := {}
  frameSize : UInt32 := 0
  deriving DecidableEq, Inhabited

namespace Code

/-- The number of words, which is the offset of the next one. -/
def size (c : Code) : Nat :=
  c.words.size

/-- The code with a word at its end. -/
def push (c : Code) (w : UInt32) (loc : Position) : Code :=
  { c with words := c.words.push w, locs := c.locs.push loc }

/-- The code with the word at an offset replaced. -/
def patch (c : Code) (offset : Nat) (w : UInt32) : Code :=
  { c with words := c.words.setIfInBounds offset w }

/-- The word at an offset. -/
def wordAt? (c : Code) (offset : Nat) : Option UInt32 :=
  c.words[offset]?

/-- The opcode whose word is at an offset. -/
def opcodeAt? (c : Code) (offset : Nat) : Option Opcode :=
  (c.wordAt? offset).bind Opcode.ofWord?

/-- The position of the word at an offset. -/
def locAt? (c : Code) (offset : Nat) : Option Position :=
  c.locs[offset]?

/-- The constant at an index. -/
def constant? (c : Code) (i : UInt32) : Option Constant :=
  c.constants.get? i

@[simp] theorem size_push (c : Code) (w : UInt32) (loc : Position) :
    (c.push w loc).size = c.size + 1 := by
  simp [size, push]

@[simp] theorem size_patch (c : Code) (offset : Nat) (w : UInt32) :
    (c.patch offset w).size = c.size := by
  simp [size, patch]

theorem lt_size_of_opcodeAt? {c : Code} {offset : Nat} {op : Opcode}
    (h : c.opcodeAt? offset = some op) : offset < c.size := by
  unfold opcodeAt? wordAt? at h
  by_cases hlt : offset < c.words.size
  · exact hlt
  · simp [hlt] at h

end Code

end Assembler
