/-!
# Structural text

The layouts used to show a value by its structure: a list in brackets, a constructor applied to one
value, and a constructor with named fields.
-/

namespace Assembler.Text

/-- A list in brackets, `[a, b]`. -/
def bracketed (items : List String) : String :=
  "[" ++ ", ".intercalate items ++ "]"

/-- A constructor applied to one value, `name(value)`. -/
def applied (name value : String) : String :=
  name ++ "(" ++ value ++ ")"

/-- A constructor with named fields: its name, and each field with its value between braces, if
there are any. -/
def record (name : String) (fields : List (String × String)) : String :=
  if fields.isEmpty then name
  else name ++ " \x7b " ++ ", ".intercalate (fields.map fun f => f.1 ++ ": " ++ f.2) ++ " \x7d"

end Assembler.Text
