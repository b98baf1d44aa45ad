import Assembler.Opcode
import Assembler.Position
import Assembler.Slot

/-!
# Instructions

An instruction names storage by slots and branch targets by labels, so it does not depend on where
it stands. Allocations, releases and label placements direct the lowering and produce no code.
-/

namespace Assembler

/-- An argument of a plain operation. -/
inductive Arg where
  | input (s : Slot)
  | output (v : Var)
  | imm (w : UInt32)
  | const (c : Constant)
  deriving DecidableEq, Inhabited

namespace Arg

/-- The two are one argument. -/
def same : Arg → Arg → Bool
  | input a, input b => a.same b
  | output a, output b => a.same b
  | imm a, imm b => a == b
  | const a, const b => a.same b
  | _, _ => false

/-- The argument as written in a listing. -/
def text : Arg → String
  | input s => s.text
  | output v => "->" ++ v.text
  | imm w => s!"#{w}"
  | const c => c.text

/-- The argument by its structure. -/
def dump : Arg → String
  | input s => Text.applied "In" s.dump
  | output v => Text.applied "Out" v.dump
  | imm w => Text.applied "Imm" (toString w)
  | const c => Text.applied "Const" c.dump

end Arg

/-- An instruction of a program. -/
inductive Instr where
  /-- Copies a value into a variable. -/
  | copy (loc : Position) (src : Slot) (dest : Var)
  /-- Gives a temporary the next free cell of the frame. -/
  | alloc (t : Temp)
  /-- Gives the cell of a temporary back. -/
  | release (t : Temp)
  /-- Jumps forward to a label. -/
  | branch (loc : Position) (label : Label)
  /-- Jumps forward to a label if the condition passes the test. -/
  | branchIf (loc : Position) (cond : Var) (test : Test) (label : Label)
  /-- Makes this place the target of a label. -/
  | place (label : Label)
  /-- Tests whether a value is of the named type. -/
  | typeIs (loc : Position) (expr : Slot) (type : String) (result : Var)
  /-- Returns a value. -/
  | ret (loc : Position) (value : Slot)
  /-- Opens a loop that binds each element of a collection to a variable. -/
  | forInit (loc : Position) (collection : Slot) (item : Var)
  /-- Closes the innermost open loop. -/
  | forClose (loc : Position)
  /-- Any other operation, with its arguments in order. -/
  | op (loc : Position) (opcode : Opcode) (args : List Arg)
  deriving DecidableEq, Inhabited

namespace Instr

/-- The two are one instruction: positions count, names of temporaries do not, and constants count
by value. -/
def same : Instr → Instr → Bool
  | copy p a x, copy q b y => p == q && a.same b && x.same y
  | alloc a, alloc b => a.same b
  | release a, release b => a.same b
  | branch p a, branch q b => p == q && a == b
  | branchIf p x s a, branchIf q y t b => p == q && x.same y && s == t && a == b
  | place a, place b => a == b
  | typeIs p a s x, typeIs q b t y => p == q && a.same b && s == t && x.same y
  | ret p a, ret q b => p == q && a.same b
  | forInit p a x, forInit q b y => p == q && a.same b && x.same y
  | forClose p, forClose q => p == q
  | op p o as, op q o₂ bs => p == q && o == o₂ && as.isEqv bs Arg.same
  | _, _ => false

/-- The instruction as written in a listing. -/
def text : Instr → String
  | copy _ src dest => Text.applied "Cp" (src.text ++ " -> " ++ dest.text)
  | alloc t => Text.applied "AllocSlot" t.text
  | release t => Text.applied "ReleaseSlot" t.text
  | branch _ label => Text.applied "Br" label.text
  | branchIf _ cond test label =>
    Text.applied "IfBr" (", ".intercalate [cond.text, test.dump, label.text])
  | place label => Text.applied "Label" label.text
  | typeIs _ expr type result =>
    Text.applied "TypeIs" (expr.text ++ ", " ++ Text.quoted type ++ " -> " ++ result.text)
  | ret _ value => Text.applied "Return" value.text
  | forInit _ collection item => Text.applied "ForInit" (collection.text ++ " -> " ++ item.text)
  | forClose _ => "ForClose"
  | op _ opcode args => Text.applied opcode.name (", ".intercalate (args.map Arg.text))

/-- The instruction by its structure. -/
def dump : Instr → String
  | copy loc src dest =>
    Text.record "Cp" [("loc", loc.text), ("src", src.dump), ("dest", dest.dump)]
  | alloc t => Text.record "AllocSlot" [("local", t.text)]
  | release t => Text.record "ReleaseSlot" [("local", t.text)]
  | branch loc label => Text.record "Br" [("loc", loc.text), ("label", label.text)]
  | branchIf loc cond test label =>
    Text.record "IfBr"
      [("loc", loc.text), ("cond", cond.dump), ("jump_cond", test.dump), ("label", label.text)]
  | place label => Text.record "PlaceLabel" [("label", label.text)]
  | typeIs loc expr type result =>
    Text.record "TypeIs"
      [("loc", loc.text), ("expr", expr.dump), ("type_name", Text.quoted type),
        ("result", result.dump)]
  | ret loc value => Text.record "Return" [("loc", loc.text), ("value", value.dump)]
  | forInit loc collection item =>
    Text.record "ForInit"
      [("loc", loc.text), ("collection", collection.dump), ("item", item.dump)]
  | forClose loc => Text.record "ForClose" [("loc", loc.text)]
  | op loc opcode args =>
    Text.record "Op"
      [("loc", loc.text), ("opcode", opcode.dump),
        ("operands", Text.bracketed (args.map Arg.dump))]

end Instr

end Assembler
