import Assembler.Draft

/-!
# Workspaces

A workspace holds named programs under construction that take their temporaries and labels from one
supply, so that any of them can be joined.
-/

namespace Assembler

/-- Named programs with a common supply of numbers. -/
structure Workspace where
  supply : Supply := {}
  units : List (String × Program) := []
  deriving DecidableEq, Inhabited

namespace Workspace

/-- The program of a name. -/
def unit? (w : Workspace) (name : String) : Option Program :=
  w.units.lookup name

/-- Forgets a name. -/
def erase (w : Workspace) (name : String) : Workspace :=
  { w with units := w.units.filter (·.1 != name) }

/-- Gives a name to a program, in place of the one it had. -/
def put (w : Workspace) (name : String) (p : Program) : Workspace :=
  { w.erase name with units := (name, p) :: (w.erase name).units }

/-- Makes a call on the named program. -/
def call? (w : Workspace) (name : String) (c : Call) : Option (Workspace × Handle) := do
  let p ← w.unit? name
  let (d, h) := Draft.call ⟨w.supply, p⟩ c
  return ({ w with supply := d.supply }.put name d.program, h)

/-- Moves one program to the end of another, and forgets its name. -/
def append? (w : Workspace) (name other : String) : Option Workspace := do
  let q ← w.unit? other
  let p ← (w.erase other).unit? name
  return (w.erase other).put name (p.append q)

end Workspace

end Assembler
