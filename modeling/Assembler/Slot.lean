import Assembler.Constant

/-!
# Storage named by a program

A program reads and writes its frame through variables: fixed locals, whose frame index is known,
and temporaries, which get an index when the program is lowered. It can also read globals, cells of
captured locals, free variables and constants.
-/

namespace Assembler

/-- A local at a known frame index. -/
structure Local where
  index : UInt32
  deriving DecidableEq, Inhabited

namespace Local

instance : LE Local := ⟨fun a b => a.index ≤ b.index⟩

instance (a b : Local) : Decidable (a ≤ b) :=
  inferInstanceAs (Decidable (a.index ≤ b.index))

/-- `L` and the index. -/
def text (l : Local) : String :=
  s!"L{l.index}"

/-- The local by its structure. -/
def dump (l : Local) : String :=
  Text.record "Local" [("index", toString l.index)]

end Local

/-- A local without a frame index. Its number tells it from the others, and its name is for the
reader only. -/
structure Temp where
  id : UInt64
  name : String
  deriving DecidableEq, Inhabited

namespace Temp

/-- The two are one temporary. -/
def same (a b : Temp) : Bool :=
  a.id == b.id

/-- The name and the number. -/
def text (t : Temp) : String :=
  s!"{t.name}#{t.id}"

end Temp

/-- The target of branches. -/
structure Label where
  id : UInt64
  deriving DecidableEq, Inhabited

namespace Label

/-- `J` and the number. -/
def text (l : Label) : String :=
  s!"J{l.id}"

end Label

/-- A place in the frame. -/
inductive Var where
  | fixed (l : Local)
  | temp (t : Temp)
  deriving DecidableEq, Inhabited

namespace Var

/-- The two are one place. -/
def same : Var → Var → Bool
  | fixed a, fixed b => a == b
  | temp a, temp b => a.same b
  | _, _ => false

/-- The text of the local or of the temporary. -/
def text : Var → String
  | fixed l => l.text
  | temp t => t.text

/-- The variable by its structure. -/
def dump : Var → String
  | fixed l => Text.applied "Local" l.dump
  | temp t => Text.applied "Lazy" t.text

end Var

/-- A value that an instruction can read. -/
inductive Slot where
  | var (v : Var)
  | global (index : UInt32)
  | cell (index : UInt32)
  | free (index : UInt32)
  | const (c : Constant)
  deriving DecidableEq, Inhabited

namespace Slot

/-- The two are one place, or constants of the same value. -/
def same : Slot → Slot → Bool
  | var a, var b => a.same b
  | global a, global b => a == b
  | cell a, cell b => a == b
  | free a, free b => a == b
  | const a, const b => a.same b
  | _, _ => false

/-- The place in the frame, if the slot is one. -/
def var? : Slot → Option Var
  | var v => some v
  | _ => none

/-- The constant, if the slot is one. -/
def const? : Slot → Option Constant
  | const c => some c
  | _ => none

/-- The slot as written in a listing. -/
def text : Slot → String
  | var v => v.text
  | global index => s!"G{index}"
  | cell index => s!"CELL{index}"
  | free index => s!"FREE{index}"
  | const c => c.text

/-- The slot by its structure. -/
def dump : Slot → String
  | var v => v.dump
  | global index => Text.applied "Global" (toString index)
  | cell index => Text.applied "Cell" (toString index)
  | free index => Text.applied "Free" (toString index)
  | const c => Text.applied "Const" c.dump

end Slot

end Assembler
