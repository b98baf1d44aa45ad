import Assembler.Slot

/-!
# Events

What the lowering of a program reports while it is under way.
-/

namespace Assembler

/-- How much an event matters. -/
inductive Level where
  | trace
  | debug
  | warn
  deriving DecidableEq

/-- A step of the lowering that is worth a report. -/
inductive Event where
  | allocated (t : Temp) (index : UInt32)
  | released (t : Temp) (index nextFree : UInt32)
  | placed (label : Label) (address : UInt32)
  | unreferenced (label : Label)
  | lowered (instructions words : Nat) (frameSize : UInt32) (constants : Nat)
  deriving DecidableEq

namespace Event

/-- How much the event matters. -/
def level : Event → Level
  | allocated _ _ | released _ _ _ | placed _ _ => .trace
  | unreferenced _ => .warn
  | lowered _ _ _ _ => .debug

/-- The message for a reader. -/
def message : Event → String
  | allocated _ _ => "allocated slot"
  | released _ _ _ => "released slot"
  | placed _ _ => "placed label"
  | unreferenced _ => "label placed without a branch targeting it"
  | lowered _ _ _ _ => "lowered IR"

end Event

end Assembler
