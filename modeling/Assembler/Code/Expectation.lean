import Assembler.Code.Decode
import Assembler.Text.Quoted
import Assembler.Text.Record

/-!
# Expected opcodes

Two checks of the opcodes of a code: that they are exactly the expected ones, and that the expected
ones occur among them in order.
-/

namespace Assembler

/-- The mnemonics, quoted and in brackets. -/
def mnemonics (ops : List Opcode) : String :=
  Text.bracketed (ops.map fun op => Text.quoted op.name)

/-- What is left of the expected opcodes when each is matched with the first place that it can be
matched with, from left to right. -/
def unmatched : (actual expected : List Opcode) → List Opcode
  | [], expected => expected
  | _ :: _, [] => []
  | a :: actual, e :: expected =>
    if a = e then unmatched actual expected else unmatched actual (e :: expected)

/-- The opcodes of a code are not as expected. -/
inductive Unexpected where
  | different (expected actual : List Opcode)
  | missing (remaining actual : List Opcode)
  deriving DecidableEq

/-- The message for a reader. -/
def Unexpected.message : Unexpected → String
  | different expected actual =>
    "assertion `left == right` failed: Bytecode mismatch.\nExpected: " ++ mnemonics expected ++
      "\nActual:   " ++ mnemonics actual ++
      "\n  left: " ++ Text.bracketed (actual.map Opcode.dump) ++
      "\n right: " ++ Text.bracketed (expected.map Opcode.dump)
  | missing remaining actual =>
    "Missing opcodes in sequence.\nExpected to find: " ++ mnemonics remaining ++
      "\nActual bytecode:  " ++ mnemonics actual

namespace Code

/-- The opcodes are exactly the expected ones. -/
def expectOpcodes (c : Code) (expected : List Opcode) : Except Unexpected Unit :=
  if c.opcodes = expected then .ok () else .error (.different expected c.opcodes)

/-- The expected opcodes occur in order. -/
def expectContains (c : Code) (expected : List Opcode) : Except Unexpected Unit :=
  match unmatched c.opcodes expected with
  | [] => .ok ()
  | remaining => .error (.missing remaining c.opcodes)

end Code

end Assembler
