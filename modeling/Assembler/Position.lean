/-!
# Source positions

A position is a line and a column. Lines count from one, so line zero marks an unknown position.
-/

namespace Assembler

/-- A place in the source text. -/
structure Position where
  line : UInt32
  col : UInt32
  deriving DecidableEq, Inhabited

namespace Position

/-- No position. -/
def unknown : Position := ⟨0, 0⟩

/-- The first column of a line. -/
def ofLine (line : UInt32) : Position := ⟨line, 1⟩

/-- Line zero stands for no position, whatever the column. -/
def isUnknown (p : Position) : Bool :=
  p.line == 0

/-- `line:col`, or `?` if unknown. -/
def text (p : Position) : String :=
  if p.isUnknown then "?" else toString p.line.toNat ++ ":" ++ toString p.col.toNat

end Position

end Assembler
