import Assembler.Constant

/-!
# Constant pools

The distinct constants of a program, in the order of their first use. A constant that is the same
value as an earlier one shares its entry.
-/

namespace Assembler

/-- A table of distinct constants. -/
structure Pool where
  entries : List Constant := []
  deriving DecidableEq, Inhabited

namespace Pool

/-- The number of entries. -/
def size (p : Pool) : Nat :=
  p.entries.length

/-- The entry with the same value as a constant. -/
def indexOf? (p : Pool) (c : Constant) : Option Nat :=
  p.entries.findIdx? (·.same c)

/-- The pool with a constant in it, and the word-sized index of its entry. -/
def add (p : Pool) (c : Constant) : Pool × UInt32 :=
  match p.indexOf? c with
  | some i => (p, i.toUInt32)
  | none => (⟨p.entries ++ [c]⟩, p.size.toUInt32)

/-- The entry at an index. -/
def get? (p : Pool) (i : UInt32) : Option Constant :=
  p.entries[i.toNat]?

end Pool

end Assembler
