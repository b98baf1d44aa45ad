import Assembler.Instr

/-!
# Programs

A program is a list of instructions. Programs name no addresses, so they can be joined end to end.
-/

namespace Assembler

/-- The instructions in brackets, `[a, b]`. -/
def listing (instrs : List Instr) : String :=
  Text.bracketed (instrs.map Instr.text)

/-- A list of instructions. -/
structure Program where
  instrs : List Instr := []
  deriving DecidableEq, Inhabited

namespace Program

/-- The number of instructions. -/
def size (p : Program) : Nat :=
  p.instrs.length

/-- The program with an instruction at its end. -/
def push (p : Program) (i : Instr) : Program :=
  ⟨p.instrs ++ [i]⟩

/-- One program after another. -/
def append (p q : Program) : Program :=
  ⟨p.instrs ++ q.instrs⟩

/-- The two hold the same instructions. -/
def same (p q : Program) : Bool :=
  p.instrs.isEqv q.instrs Instr.same

/-- The listing of the whole program. -/
def text (p : Program) : String :=
  listing p.instrs

/-- The program by its structure. -/
def dump (p : Program) : String :=
  Text.record "BcIr" [("instructions", Text.bracketed (p.instrs.map Instr.dump))]

/-! ## Checking the size -/

/-- How a program differs from the number of instructions it is expected to have. -/
inductive SizeChange where
  | grown (size : Nat) (saved extra : List Instr)
  | shrunk (size : Nat) (actual : List Instr)
  deriving DecidableEq

/-- The message for a reader. -/
def SizeChange.message : SizeChange → String
  | grown size saved extra =>
    s!"IR changed, expected size: {size}, saved: {listing saved}, extra: {listing extra}"
  | shrunk size actual => s!"IR changed, expected size: {size}, actual: {listing actual}"

/-- The change from an expected size, if there is one. -/
def sizeChange? (p : Program) (size : Nat) : Option SizeChange :=
  if size < p.size then some (.grown size (p.instrs.take size) (p.instrs.drop size))
  else if p.size < size then some (.shrunk size p.instrs)
  else none

/-! ## Recognised shapes -/

/-- The constant that the program returns at once. -/
def constantResult? (p : Program) : Option Constant :=
  match p.instrs with
  | .ret _ value :: _ => value.const?
  | _ => none

/-- The type that the program tests its first parameter for, if it returns at once the outcome of
such a test, through a temporary of its own. -/
def typeTestResult? (p : Program) : Option String :=
  match p.instrs with
  | .alloc t :: .typeIs _ (.var (.fixed param)) type (.temp result) ::
      .ret _ (.var (.temp value)) :: _ =>
    if param.index = 0 ∧ result.id = t.id ∧ value.id = t.id then some type else none
  | _ => none

end Program

end Assembler
