/-!
# Double-precision numbers as words

A number is its 64-bit interchange word: a sign bit, eleven exponent bits and 52 fraction bits. All
that is needed of it here, comparison and its decimal text, is exact integer arithmetic on these
fields.
-/

namespace Assembler

/-- A double-precision number, given by its interchange word. -/
structure Binary64 where
  bits : UInt64
  deriving DecidableEq, Inhabited

namespace Binary64

/-- The sign bit. -/
def negative (x : Binary64) : Bool :=
  x.bits >>> 63 == 1

/-- The biased exponent. -/
def exponent (x : Binary64) : Nat :=
  (x.bits >>> 52 &&& 0x7ff).toNat

/-- The fraction, without the implicit leading bit. -/
def fraction (x : Binary64) : Nat :=
  (x.bits &&& 0xfffffffffffff).toNat

/-- The word stands for no number. -/
def isNaN (x : Binary64) : Bool :=
  x.exponent == 0x7ff && x.fraction != 0

/-- The word stands for one of the two infinities. -/
def isInfinite (x : Binary64) : Bool :=
  x.exponent == 0x7ff && x.fraction == 0

/-- The word stands for zero, of either sign. -/
def isZero (x : Binary64) : Bool :=
  x.exponent == 0 && x.fraction == 0

/-- Equality of numbers, with all words that are not a number equal to each other: the two zeros
are equal too, and any other number is given by one word only. -/
def same (x y : Binary64) : Bool :=
  x.isNaN && y.isNaN || x.isZero && y.isZero || x.bits == y.bits

end Binary64

end Assembler
