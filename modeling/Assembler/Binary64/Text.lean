import Assembler.Binary64.Shortest

/-!
# The text of a double-precision number

The shortest digits that read back, in positional form for moderate sizes and with an exponent for
the others.
-/

namespace Assembler.Binary64

namespace Decimal

/-- The decimal with a point, and at least one digit on either side of it. -/
def positional (d : Decimal) : String :=
  let ds := d.digitList
  let whole := (ds.length + d.scale).toNat
  if 0 ≤ d.scale then String.ofList (ds ++ List.replicate d.scale.toNat '0') ++ ".0"
  else if 0 < whole then String.ofList (ds.take whole) ++ "." ++ String.ofList (ds.drop whole)
  else "0." ++ String.ofList (List.replicate ((-d.scale).toNat - ds.length) '0' ++ ds)

/-- The decimal with its point after the leading digit, and an exponent. A single digit has no
point, and a positive exponent no sign. -/
def scientific (d : Decimal) : String :=
  let ds := d.digitList
  let mantissa := if ds.length ≤ 1 then ds else ds.take 1 ++ '.' :: ds.drop 1
  String.ofList mantissa ++ "e" ++ toString d.leading

/-- Decimals from `10 ^ (-4)` up to `10 ^ 16` are positional. -/
def text (d : Decimal) : String :=
  if -4 ≤ d.leading ∧ d.leading < 16 then d.positional else d.scientific

end Decimal

/-- The text of a number. -/
def text (x : Binary64) : String :=
  if x.isNaN then "NaN" else
    let sign := if x.negative then "-" else ""
    if x.isInfinite then sign ++ "inf"
    else if x.isZero then sign ++ "0.0"
    else sign ++ (x.interval.shortest?.map Decimal.text).getD ""

end Assembler.Binary64
