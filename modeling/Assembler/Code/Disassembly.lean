import Assembler.Code.Decode
import Assembler.Operand

/-!
# Disassembly

One line for each instruction: its offset, its mnemonic and its operands. An address follows `@`, a
storage place is written by kind and index, and any other word follows `#` in hexadecimal.
-/

namespace Assembler

/-- The text of an operand word that is not an address. -/
def operandText (w : UInt32) : String :=
  match Operand.decode? w with
  | some o => o.text
  | none => "#" ++ String.ofList (Nat.toDigits 16 w.toNat)

namespace Decoded

/-- The texts of the operands. -/
def operandTexts (d : Decoded) : List String :=
  d.operands.mapIdx fun i w =>
    if d.opcode.address? = some i then s!"@{w}" else operandText w

/-- The line of an instruction. The offset is padded with blanks to four places. -/
def line (d : Decoded) : String :=
  let digits := Nat.toDigits 10 d.offset
  String.ofList (digits.leftpad 4 ' ') ++ ": " ++ " ".intercalate (d.opcode.name :: d.operandTexts)
    ++ "\n"

end Decoded

/-- The lines of all instructions. -/
def Code.disassembly (c : Code) : String :=
  String.join (c.decoded.map Decoded.line)

end Assembler
