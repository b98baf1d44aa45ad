/-!
# Operand words

An operand word names a storage place: the four high bits give the kind of storage and the other 28
bits the index in it.
-/

namespace Assembler

/-- A kind of storage. -/
inductive Kind where
  | frame
  | const
  | global
  | cell
  | free
  deriving DecidableEq, Inhabited

namespace Kind

/-- Every kind, in the order of their tags. -/
def all : List Kind := [frame, const, global, cell, free]

/-- The high bits of an operand word. -/
def tag (k : Kind) : UInt32 :=
  (all.idxOf k).toUInt32

/-- The kind with the given high bits. -/
def ofTag? (t : UInt32) : Option Kind :=
  all[t.toNat]?

/-- The letters before an index of this kind. -/
def letters : Kind → String
  | frame => "L"
  | const => "C"
  | global => "G"
  | cell => "CELL"
  | free => "FREE"

theorem ofTag?_tag (k : Kind) : ofTag? k.tag = some k := by
  cases k <;> rfl

end Kind

/-- The largest index that an operand word has room for. -/
def maxIndex : UInt32 := 0x0fffffff

/-- A storage place that fits in an operand word. -/
structure Operand where
  kind : Kind
  index : UInt32
  index_le : index ≤ maxIndex
  deriving DecidableEq

namespace Operand

/-- The place with the given index, if the index has room. -/
def ofIndex? (kind : Kind) (index : UInt32) : Option Operand :=
  if h : index ≤ maxIndex then some ⟨kind, index, h⟩ else none

/-- The operand word. -/
def encode (o : Operand) : UInt32 :=
  o.kind.tag <<< 28 ||| o.index

/-- The index is what lies below the tag. -/
theorem and_maxIndex_le (w : UInt32) : w &&& maxIndex ≤ maxIndex := by
  rw [UInt32.le_iff_toNat_le, UInt32.toNat_and]
  exact Nat.and_le_right

/-- The place that a word names, if its tag is that of a kind. -/
def decode? (w : UInt32) : Option Operand :=
  (Kind.ofTag? (w >>> 28)).map fun kind => ⟨kind, w &&& maxIndex, and_maxIndex_le w⟩

/-- The letters of the kind and the index. -/
def text (o : Operand) : String :=
  o.kind.letters ++ toString o.index.toNat

end Operand

end Assembler
