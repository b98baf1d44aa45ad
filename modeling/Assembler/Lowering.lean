import Assembler.Code.Basic
import Assembler.Event
import Assembler.Frame
import Assembler.Jumps
import Assembler.Operand
import Assembler.Program

/-!
# Lowering

One pass over the instructions of a program writes its code. An instruction is written as the word
of its opcode followed by one word for each field. The addresses of forward branches are not known
yet when they are written, so their words are patched at the end, and that of a loop's end is
patched where the loop is closed.
-/

namespace Assembler

/-- The word written in place of an address that is not known yet. -/
def pending : UInt32 := 0xffffffff

/-- The sum of two words, if it is one. -/
def sum? (a b : UInt32) : Option UInt32 :=
  if a.toNat + b.toNat < UInt32.size then some (a + b) else none

/-- The storage place of a kind at an index. -/
def operand (kind : Kind) (index : UInt32) : Except Fault Operand :=
  match Operand.ofIndex? kind index with
  | some o => .ok o
  | none => .error (.operandOverflow index)

/-- What an operand word of an instruction stands for. A word that is `located` is written with the
position that it comes with, and all else with that of the instruction under way. -/
inductive Field where
  | slot (s : Slot)
  | word (w : UInt32)
  | located (loc : Position) (w : UInt32)
  | jump (label : Label)
  deriving DecidableEq

/-- The field of an argument. -/
def Arg.field : Arg → Field
  | .input s => .slot s
  | .output v => .slot (.var v)
  | .imm w => .word w
  | .const c => .slot (.const c)

/-- An instruction that is being written: its opcode, the offset of its first word, and its
position. -/
structure Underway where
  opcode : Opcode
  start : Nat
  loc : Position
  deriving DecidableEq, Inhabited

/-- The state of the pass: the number of fixed locals, the code so far, the frame, the jumps, the
instruction that is being written, the number of words of the instructions written so far, and the
highest frame index among them. -/
structure Pass where
  fixedLocals : UInt32
  code : Code := {}
  frame : Frame := {}
  jumps : Jumps := {}
  current : Option Underway := none
  accounted : Nat := 0
  maxLocal : Option UInt32 := none
  deriving DecidableEq, Inhabited

namespace Pass

/-! ## Writing an instruction -/

/-- The offset of the next word. -/
def offset (p : Pass) : Nat :=
  p.code.size

/-- The position of the instruction that is being written. -/
def loc (p : Pass) : Position :=
  p.current.elim .unknown (·.loc)

/-- Writes a word that has a position. -/
def push (p : Pass) (loc : Position) (w : UInt32) : Pass :=
  { p with code := p.code.push w loc }

/-- The frame index of a variable. Temporaries come above the fixed locals. -/
def frameIndex (p : Pass) : Var → Except Fault UInt32
  | .fixed l =>
    if l.index < p.fixedLocals then .ok l.index
    else .error (.localOutOfFrame l.index p.fixedLocals)
  | .temp t => do
    let cell ← p.frame.resolve t
    match sum? p.fixedLocals cell with
    | some index => .ok index
    | none => .error (.operandOverflow 0xffffffff)

/-- Writes the word of a slot. A constant is put in the pool. -/
def writeSlot (p : Pass) : Slot → Except Fault Pass
  | .var v => do
    let index ← p.frameIndex v
    let o ← operand .frame index
    return { p with maxLocal := some (p.maxLocal.elim index (max · index)) }.push p.loc o.encode
  | .global index => do return p.push p.loc (← operand .global index).encode
  | .cell index => do return p.push p.loc (← operand .cell index).encode
  | .free index => do return p.push p.loc (← operand .free index).encode
  | .const c => do
    let (constants, index) := p.code.constants.add c
    let o ← operand .const index
    return { p with code := { p.code with constants } }.push p.loc o.encode

/-- Writes one field of the instruction number `n`. -/
def writeField (n : Nat) (p : Pass) : Field → Except Fault Pass
  | .slot s => p.writeSlot s
  | .word w => .ok (p.push p.loc w)
  | .located loc w => .ok (p.push loc w)
  | .jump label => do
    let jumps ← p.jumps.await label p.offset n
    return { p with jumps }.push p.loc pending

/-- Starts an instruction by writing the word of its opcode. -/
def start (p : Pass) (loc : Position) (op : Opcode) : Pass :=
  { p with current := some ⟨op, p.offset, loc⟩ }.push loc op.word

/-- Ends the instruction that is being written, and checks that it has the width of its opcode. -/
def stop (p : Pass) : Except Fault Pass :=
  match p.current with
  | none => .ok p
  | some ⟨op, start, _⟩ =>
    let written := p.offset - start
    if written = op.width then .ok { p with current := none, accounted := p.accounted + written }
    else .error (.widthMismatch op.name op.width written)

/-- Writes the instruction number `n`. -/
def emit (p : Pass) (n : Nat) (loc : Position) (op : Opcode) (fields : List Field) :
    Except Fault Pass := do
  let q ← fields.foldlM (writeField n) (p.start loc op)
  q.stop

/-- Opens a loop. The address of its end is the last word written. -/
def openLoop (p : Pass) (n : Nat) (loc : Position) (collection : Slot) (item : Var) :
    Except Fault Pass := do
  let exit := p.offset + 3
  let q ← p.emit n loc .forInit [.slot collection, .slot (.var item), .located loc pending]
  return { q with jumps := q.jumps.enter ⟨item, q.offset.toUInt32, exit⟩ }

/-- Closes the innermost loop. Its variable must still hold a cell. -/
def closeLoop (p : Pass) (n : Nat) (loc : Position) : Except Fault Pass := do
  let (jumps, l) ← p.jumps.leave
  let q ← { p with jumps }.emit n loc .forNext [.slot (.var l.item), .located loc l.body]
  return { q with code := q.code.patch l.exit q.offset.toUInt32 }

/-- Writes a plain operation. -/
def writeOp (p : Pass) (n : Nat) (loc : Position) (op : Opcode) (args : List Arg) :
    Except Fault Pass :=
  if op.isReserved then .error (.reservedOpcode op.name)
  else if args.length ≠ op.operandCount then
    .error (.operandCountMismatch op.name op.operandCount args.length)
  else p.emit n loc op (args.map Arg.field)

/-- Writes the code of the instruction number `n`, or makes the change to the frame or to the labels
that it directs. -/
def step (p : Pass) (n : Nat) : Instr → Except Fault (Pass × Option Event)
  | .copy loc src dest => do
    return (← p.emit n loc .copy [.slot src, .slot (.var dest)], none)
  | .alloc t => do
    let (outcome, frame) := p.frame.alloc t
    let index ← outcome
    return ({ p with frame }, some (.allocated t index))
  | .release t => do
    let (outcome, frame) := p.frame.release t
    let index ← outcome
    return ({ p with frame }, some (.released t index frame.nextFree))
  | .branch loc label => do
    return (← p.emit n loc .branch [.jump label], none)
  | .branchIf loc cond test label => do
    return (← p.emit n loc test.opcode [.slot (.var cond), .jump label], none)
  | .place label => do
    let address := p.offset.toUInt32
    let jumps ← p.jumps.place label address
    return ({ p with jumps }, some (.placed label address))
  | .typeIs loc expr type result => do
    let fields := [.slot expr, .slot (.const (.str type)), .slot (.var result)]
    return (← p.emit n loc .typeIs fields, none)
  | .ret loc value => do
    return (← p.emit n loc .ret [.slot value], none)
  | .forInit loc collection item => do
    return (← p.openLoop n loc collection item, none)
  | .forClose loc => do
    return (← p.closeLoop n loc, none)
  | .op loc opcode args => do
    return (← p.writeOp n loc opcode args, none)

/-- Writes instructions, of which the first has number `n`, up to the first that fails. -/
def run (p : Pass) (n : Nat) : List Instr → List Event × Except (Nat × Fault) Pass
  | [] => ([], .ok p)
  | i :: instrs =>
    match p.step n i with
    | .error e => ([], .error (n, e))
    | .ok (q, event) =>
      let rest := q.run (n + 1) instrs
      (event.toList ++ rest.1, rest.2)

/-! ## Finishing -/

/-- Checks the code as a whole, and gives the size of its frame. -/
def check (p : Pass) : Except Fault UInt32 :=
  if p.jumps.loops ≠ [] then .error (.unclosedLoop p.jumps.loops.length)
  else if p.accounted ≠ p.code.size then .error (.streamLengthMismatch p.accounted p.code.size)
  else
    match sum? p.fixedLocals p.frame.highWater with
    | none => .error (.operandOverflow 0xffffffff)
    | some frameSize =>
      match p.maxLocal with
      | some index =>
        if frameSize ≤ index then .error (.frameSizeMismatch frameSize index) else .ok frameSize
      | none => .ok frameSize

/-- Patches the addresses of branches and checks the code. -/
def finish (p : Pass) : List Event × Except Fault Code :=
  match p.jumps.resolve with
  | .error e => ([], .error e)
  | .ok patches =>
    let code := patches.foldl (fun c patch => c.patch patch.1 patch.2) p.code
    (p.jumps.unreferenced.map .unreferenced, p.check.map fun frameSize => { code with frameSize })

end Pass

/-! ## Lowering a program -/

/-- What became of a program: the events in order, and its code or the reason why there is none. -/
structure Lowered where
  events : List Event
  result : Except Failure Code

namespace Program

/-- The failure for a fault that shows when all instructions have been written. A branch without a
label is the fault of that branch, and all else of the program as a whole. -/
def failure (p : Program) (fault : Fault) : Failure :=
  match fault with
  | .unresolvedJump _ branch => .instruction branch p.text fault
  | _ => .finalize p.text fault

/-- Lowers a program that has the given number of fixed locals. -/
def lower (p : Program) (fixedLocals : UInt32) : Lowered :=
  match Pass.run { fixedLocals } 0 p.instrs with
  | (events, .error (index, fault)) => ⟨events, .error (.instruction index p.text fault)⟩
  | (events, .ok pass) =>
    match pass.finish with
    | (warnings, .error fault) => ⟨events ++ warnings, .error (p.failure fault)⟩
    | (warnings, .ok code) =>
      let last := .lowered p.size code.size code.frameSize code.constants.size
      ⟨events ++ warnings ++ [last], .ok code⟩

end Program

end Assembler
