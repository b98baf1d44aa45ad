import Assembler.Fault
import Assembler.Slot

/-!
# Jumps

The addresses of the labels placed so far, the address words of branches that wait for their label,
and the open loops. A branch must come before its label.
-/

namespace Assembler

/-- An address word that waits for a label. -/
structure Fixup where
  offset : Nat
  label : Label
  branch : Nat
  deriving DecidableEq, Inhabited

/-- An open loop: its variable, the address of its body, and the offset of the address word that
waits for its end. -/
structure Loop where
  item : Var
  body : UInt32
  exit : Nat
  deriving DecidableEq, Inhabited

/-- The labels, branches and loops seen so far. Fixups are in the order of their branches, and the
innermost loop comes first. -/
structure Jumps where
  placed : List (Label × UInt32) := []
  fixups : List Fixup := []
  loops : List Loop := []
  deriving DecidableEq, Inhabited

namespace Jumps

/-- The address of a label. -/
def address? (j : Jumps) (label : Label) : Option UInt32 :=
  j.placed.lookup label

/-- Notes an address word of the instruction number `branch`. -/
def await (j : Jumps) (label : Label) (offset branch : Nat) : Except Fault Jumps :=
  match j.address? label with
  | some _ => .error (.backwardJump label.text)
  | none => .ok { j with fixups := j.fixups ++ [⟨offset, label, branch⟩] }

/-- Notes the address of a label. -/
def place (j : Jumps) (label : Label) (address : UInt32) : Except Fault Jumps :=
  match j.address? label with
  | some _ => .error (.labelPlacedTwice label.text)
  | none => .ok { j with placed := (label, address) :: j.placed }

/-- Opens a loop. -/
def enter (j : Jumps) (l : Loop) : Jumps :=
  { j with loops := l :: j.loops }

/-- Closes the innermost loop. -/
def leave (j : Jumps) : Except Fault (Jumps × Loop) :=
  match j.loops with
  | [] => .error .unbalancedLoopClose
  | l :: loops => .ok ({ j with loops }, l)

/-- The offset and the address of each address word that waits for a label. -/
def resolve (j : Jumps) : Except Fault (List (Nat × UInt32)) :=
  j.fixups.mapM fun f =>
    match j.address? f.label with
    | some address => .ok (f.offset, address)
    | none => .error (.unresolvedJump f.label.text f.branch)

/-- The labels that no branch waits for, in the order of their numbers. -/
def unreferenced (j : Jumps) : List Label :=
  let labels := (j.placed.map Prod.fst).filter fun l => j.fixups.all (·.label ≠ l)
  labels.mergeSort fun a b => a.id ≤ b.id

end Jumps

end Assembler
