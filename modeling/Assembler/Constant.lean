import Assembler.Binary64.Text
import Assembler.Text.Quoted
import Assembler.Text.Record

/-!
# Constants

The values that a program can name literally. Two constants may be the same value without being
the same literal: the two zeros of a double-precision number are, and so are all the words that
are not a number.
-/

namespace Assembler

/-- A literal value. -/
inductive Constant where
  | nothing
  | bool (b : Bool)
  | int (n : Int64)
  | float (x : Binary64)
  | str (s : String)
  deriving DecidableEq, Inhabited

namespace Constant

/-- The two literals stand for the same value. An integer and a float never do. -/
def same : Constant → Constant → Bool
  | nothing, nothing => true
  | bool a, bool b => a == b
  | int a, int b => a == b
  | float a, float b => a.same b
  | str a, str b => a == b
  | _, _ => false

/-- The literal as written in source text. -/
def text : Constant → String
  | nothing => "None"
  | bool true => "True"
  | bool false => "False"
  | int n => toString n.toInt
  | float x => x.text
  | str s => Text.quoted s

/-- The literal by its structure. -/
def dump : Constant → String
  | nothing => "None"
  | bool true => Text.applied "Bool" "true"
  | bool false => Text.applied "Bool" "false"
  | int n => Text.applied "Int" (toString n.toInt)
  | float x => Text.applied "Float" x.text
  | str s => Text.applied "Str" (Text.quoted s)

end Constant

end Assembler
