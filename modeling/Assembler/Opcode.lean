/-!
# Opcodes

The operations of the machine. An instruction is one word for its opcode followed by a fixed number
of operand words, at most one of which is a code address.
-/

namespace Assembler

/-- An operation of the machine. -/
inductive Opcode where
  | copy
  | branch
  | branchIf
  | branchUnless
  | forInit
  | forNext
  | ret
  | retNone
  | typeIs
  | add
  | sub
  | mul
  | div
  | mod
  | neg
  | not
  | eq
  | ne
  | lt
  | le
  | contains
  | index
  | setIndex
  | getAttr
  | call
  deriving DecidableEq, Inhabited

namespace Opcode

/-- Every opcode, in the order of their words. -/
def all : List Opcode :=
  [copy, branch, branchIf, branchUnless, forInit, forNext, ret, retNone, typeIs, add, sub, mul, div,
    mod, neg, not, eq, ne, lt, le, contains, index, setIndex, getAttr, call]

/-- The word of an opcode. -/
def word (op : Opcode) : UInt32 :=
  (all.idxOf op).toUInt32

/-- The opcode of a word. -/
def ofWord? (w : UInt32) : Option Opcode :=
  all[w.toNat]?

/-- The mnemonic. -/
def name : Opcode → String
  | copy => "CP"
  | branch => "BR"
  | branchIf => "IF_BR"
  | branchUnless => "IF_NOT_BR"
  | forInit => "FOR_INIT"
  | forNext => "CONTINUE"
  | ret => "RETURN"
  | retNone => "RETURN_NONE"
  | typeIs => "TYPE_IS"
  | add => "PLUS"
  | sub => "MINUS"
  | mul => "MUL"
  | div => "DIV"
  | mod => "MOD"
  | neg => "NEG"
  | not => "NOT"
  | eq => "EQ"
  | ne => "NOT_EQ"
  | lt => "LT"
  | le => "LT_EQ"
  | contains => "IN"
  | index => "INDEX"
  | setIndex => "SET_INDEX"
  | getAttr => "GET_ATTR"
  | call => "CALL"

/-- The opcode of a mnemonic. -/
def ofName? (s : String) : Option Opcode :=
  all.find? (·.name == s)

/-- The opcode by its structure. -/
def dump : Opcode → String
  | copy => "Cp"
  | branch => "Br"
  | branchIf => "IfBr"
  | branchUnless => "IfNotBr"
  | forInit => "ForInit"
  | forNext => "Continue"
  | ret => "Return"
  | retNone => "ReturnNone"
  | typeIs => "TypeIs"
  | add => "Plus"
  | sub => "Minus"
  | mul => "Mul"
  | div => "Div"
  | mod => "Mod"
  | neg => "Neg"
  | not => "Not"
  | eq => "Eq"
  | ne => "NotEq"
  | lt => "Lt"
  | le => "LtEq"
  | contains => "In"
  | index => "Index"
  | setIndex => "SetIndex"
  | getAttr => "GetAttr"
  | call => "Call"

/-- The number of operand words. -/
def operandCount : Opcode → Nat
  | retNone => 0
  | branch | ret => 1
  | copy | branchIf | branchUnless | forNext | neg | not => 2
  | forInit | typeIs | add | sub | mul | div | mod | eq | ne | lt | le | contains | index | setIndex
  | getAttr | call => 3

/-- The number of words of an instruction, that of the opcode included. -/
def width (op : Opcode) : Nat :=
  1 + op.operandCount

/-- The place among the operands of the code address, if there is one. -/
def address? : Opcode → Option Nat
  | branch => some 0
  | branchIf | branchUnless | forNext => some 1
  | forInit => some 2
  | _ => none

/-- An opcode with a code address is only written by the instruction that resolves the address. -/
def isReserved (op : Opcode) : Bool :=
  op.address?.isSome

theorem ofWord?_word (op : Opcode) : ofWord? op.word = some op := by
  cases op <;> rfl

end Opcode

/-- Which outcome of a test takes a branch. -/
inductive Test where
  | whenTrue
  | whenFalse
  deriving DecidableEq, Inhabited

namespace Test

/-- The conditional branch taken on this outcome. -/
def opcode : Test → Opcode
  | whenTrue => .branchIf
  | whenFalse => .branchUnless

/-- The test by its structure. -/
def dump : Test → String
  | whenTrue => "IfTrue"
  | whenFalse => "IfFalse"

end Test

end Assembler
