import Assembler.Text.Blank
import Assembler.Text.ExtendingMark

/-!
# Quoted text

A text between double quotes in which every character can be told from every other: controls with
a short name have a backslash form, the other characters that cannot be seen on their own are
written by their code point, and the rest stand for themselves.
-/

namespace Assembler.Text

/-- A code point by number, `\u` and its hexadecimal digits between braces. -/
def codePoint (c : Char) : String :=
  "\\u\x7b" ++ String.ofList (Nat.toDigits 16 c.toNat) ++ "\x7d"

/-- How one character is written between double quotes. -/
def escaped (c : Char) : String :=
  match c with
  | '\x00' => "\\0"
  | '\t' => "\\t"
  | '\r' => "\\r"
  | '\n' => "\\n"
  | '\"' => "\\\""
  | '\\' => "\\\\"
  | c => if isExtendingMark c || isBlank c then codePoint c else c.toString

/-- The text between double quotes. -/
def quoted (s : String) : String :=
  "\"" ++ String.join (s.toList.map escaped) ++ "\""

end Assembler.Text
