import Assembler.Program

/-!
# Drafting a program

A draft is a program under construction together with the supply of numbers for new temporaries
and labels. Every temporary comes with its allocation and every label with a branch to it. Drafts
that take their numbers from one supply can be joined, since they share neither.
-/

namespace Assembler

/-- The next number of a temporary and the next number of a label. -/
structure Supply where
  temps : UInt64 := 0
  labels : UInt64 := 0
  deriving DecidableEq, Inhabited

/-- A program under construction. -/
structure Draft where
  supply : Supply
  program : Program
  deriving DecidableEq, Inhabited

namespace Draft

/-- Adds an instruction. -/
def add (d : Draft) (i : Instr) : Draft :=
  { d with program := d.program.push i }

/-- A temporary with a number of its own. -/
def newTemp (d : Draft) (name : String) : Draft × Temp :=
  ({ d with supply := { d.supply with temps := d.supply.temps + 1 } }, ⟨d.supply.temps, name⟩)

/-- A label with a number of its own. -/
def newLabel (d : Draft) : Draft × Label :=
  ({ d with supply := { d.supply with labels := d.supply.labels + 1 } }, ⟨d.supply.labels⟩)

/-- Allocates a new temporary. -/
def allocate (d : Draft) (name : String) : Draft × Temp :=
  let (d, t) := d.newTemp name
  (d.add (.alloc t), t)

/-- Gives the cell of a temporary back. -/
def release (d : Draft) (t : Temp) : Draft :=
  d.add (.release t)

/-- Makes a value available in a variable: it stays where it is if it is in one, and is copied into
a new temporary otherwise. -/
def materialize (d : Draft) (loc : Position) (s : Slot) (name : String) : Draft × Var :=
  match s.var? with
  | some v => (d, v)
  | none =>
    let (d, t) := d.allocate name
    (d.add (.copy loc s (.temp t)), .temp t)

/-- Branches to a new label. -/
def branch (d : Draft) (loc : Position) : Draft × Label :=
  let (d, label) := d.newLabel
  (d.add (.branch loc label), label)

/-- Branches to a new label if the condition passes the test. -/
def branchIf (d : Draft) (loc : Position) (cond : Var) (test : Test) : Draft × Label :=
  let (d, label) := d.newLabel
  (d.add (.branchIf loc cond test label), label)

/-- Branches on a value that need not be in a variable. -/
def branchIfSlot (d : Draft) (loc : Position) (cond : Slot) (test : Test) : Draft × Label :=
  let (d, v) := d.materialize loc cond "cond"
  d.branchIf loc v test

/-- Makes this place the target of the labels. -/
def placeAll (d : Draft) (labels : List Label) : Draft :=
  { d with program := d.program.append ⟨labels.map .place⟩ }

end Draft

/-! ## Calls as data -/

/-- A call on a draft. -/
inductive Call where
  | allocate (name : String)
  | release (t : Temp)
  | materialize (loc : Position) (s : Slot) (name : String)
  | branch (loc : Position)
  | branchIf (loc : Position) (cond : Var) (test : Test)
  | branchIfSlot (loc : Position) (cond : Slot) (test : Test)
  | placeAll (labels : List Label)
  | forInit (loc : Position) (collection : Slot) (item : Var)
  | forClose (loc : Position)
  | add (i : Instr)
  deriving DecidableEq

/-- What a call hands out. -/
inductive Handle where
  | nothing
  | var (v : Var)
  | label (l : Label)
  deriving DecidableEq

/-- Makes a call. -/
def Draft.call (d : Draft) : Call → Draft × Handle
  | .allocate name => let (d, t) := d.allocate name; (d, .var (.temp t))
  | .release t => (d.release t, .nothing)
  | .materialize loc s name => let (d, v) := d.materialize loc s name; (d, .var v)
  | .branch loc => let (d, l) := d.branch loc; (d, .label l)
  | .branchIf loc cond test => let (d, l) := d.branchIf loc cond test; (d, .label l)
  | .branchIfSlot loc cond test => let (d, l) := d.branchIfSlot loc cond test; (d, .label l)
  | .placeAll labels => (d.placeAll labels, .nothing)
  | .forInit loc collection item => (d.add (.forInit loc collection item), .nothing)
  | .forClose loc => (d.add (.forClose loc), .nothing)
  | .add i => (d.add i, .nothing)

end Assembler
