import Assembler.Fault
import Assembler.Slot

/-!
# Frames

The cells of a frame above the fixed locals form a stack that hands them to temporaries. A new
temporary gets the cell on top. The cell of a released temporary is retired, and retired cells are
reclaimed once they are on top, so a cell is never moved while a temporary holds it. A temporary is
allocated once and released once.
-/

namespace Assembler

/-- The state of a cell of the stack. -/
inductive Cell where
  | held
  | retired
  deriving DecidableEq, Inhabited

/-- The cell of a temporary, counted from the bottom of the stack. -/
inductive Binding where
  | live (index : UInt32)
  | released
  deriving DecidableEq, Inhabited

/-- The stack without the retired cells on top. The bottom cell comes first. -/
def reclaim : List Cell → List Cell
  | [] => []
  | c :: cells =>
    match c, reclaim cells with
    | .retired, [] => []
    | c, rest => c :: rest

/-- A stack of cells and the temporaries seen so far. -/
structure Frame where
  bindings : List (UInt64 × Binding) := []
  cells : List Cell := []
  highWater : UInt32 := 0
  deriving DecidableEq, Inhabited

namespace Frame

/-- The binding of a temporary. -/
def binding? (f : Frame) (t : Temp) : Option Binding :=
  f.bindings.lookup t.id

/-- The cell that the next temporary gets. -/
def nextFree (f : Frame) : UInt32 :=
  f.cells.length.toUInt32

/-- Gives the cell on top to a temporary. With the outcome comes the frame after the call, also if
the call fails. -/
def alloc (f : Frame) (t : Temp) : Except Fault UInt32 × Frame :=
  match f.binding? t with
  | some _ => (.error (.slotAllocatedTwice t.text), f)
  | none =>
    let index := f.nextFree
    (.ok index,
      { bindings := (t.id, .live index) :: f.bindings
        cells := f.cells ++ [.held]
        highWater := max f.highWater (index + 1) })

/-- Retires the cell of a temporary. With the outcome comes the frame after the call, also if the
call fails. -/
def release (f : Frame) (t : Temp) : Except Fault UInt32 × Frame :=
  match f.binding? t with
  | some (.live index) =>
    (.ok index,
      { f with
        bindings := f.bindings.map fun b => if b.1 = t.id then (b.1, .released) else b
        cells := reclaim (f.cells.set index.toNat .retired) })
  | some .released => (.error (.slotReleased t.text), f)
  | none => (.error (.releaseOfUnallocated t.text), f)

/-- The cell of a temporary. -/
def resolve (f : Frame) (t : Temp) : Except Fault UInt32 :=
  match f.binding? t with
  | some (.live index) => .ok index
  | some .released => .error (.slotReleased t.text)
  | none => .error (.unresolvedSlot t.text)

end Frame

end Assembler
