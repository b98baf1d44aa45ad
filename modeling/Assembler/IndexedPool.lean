import Assembler.Pool

/-!
# Constant pools with an index

A pool that finds the entry of a constant through an index and not by a search. The index has one
number for each value, so two constants of the same value are one key of it.
-/

namespace Assembler

/-- A table of distinct constants, with the numbers of its entries by their values. -/
structure IndexedPool where
  entries : List Constant := []
  index : List (Constant × UInt32) := []
  deriving DecidableEq, Inhabited

namespace IndexedPool

/-- The number of entries. -/
def size (p : IndexedPool) : Nat :=
  p.entries.length

/-- The number that the index has for the value of a constant. -/
def lookup? (p : IndexedPool) (c : Constant) : Option UInt32 :=
  (p.index.find? (·.1.same c)).map Prod.snd

/-- The pool with a constant in it, and the word-sized number of its entry. -/
def add (p : IndexedPool) (c : Constant) : IndexedPool × UInt32 :=
  match p.lookup? c with
  | some i => (p, i)
  | none =>
    let i := p.size.toUInt32
    ({ entries := p.entries ++ [c], index := (c, i) :: p.index }, i)

/-- The entry at an index. -/
def get? (p : IndexedPool) (i : UInt32) : Option Constant :=
  p.entries[i.toNat]?

end IndexedPool

end Assembler
