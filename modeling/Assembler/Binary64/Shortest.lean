import Assembler.Binary64.Basic

/-!
# The shortest decimal of a double-precision number

Among the decimals that a reader would round to a given number, the ones with the fewest digits,
and of these the nearest. The numbers and the ends of the rounding interval are integers over a
common power of two, so every comparison is exact.
-/

namespace Assembler.Binary64

/-- A positive decimal `digits · 10 ^ scale`. -/
structure Decimal where
  digits : Nat
  scale : Int
  deriving DecidableEq, Repr

namespace Decimal

/-- The decimal digits, most significant first. -/
def digitList (d : Decimal) : List Char :=
  Nat.toDigits 10 d.digits

/-- The power of ten of the leading digit. -/
def leading (d : Decimal) : Int :=
  d.scale + d.digitList.length - 1

/-- The same decimal without zeros at its end, of which at most `n` are taken off. -/
def strip : Nat → Decimal → Decimal
  | 0, d => d
  | n + 1, d => if d.digits % 10 = 0 then strip n ⟨d.digits / 10, d.scale + 1⟩ else d

end Decimal

/-- The numbers that round to `value · 2 ^ power`: from `low` to `high`, in the same unit, with the
ends if `closed`. -/
structure Interval where
  low : Nat
  value : Nat
  high : Nat
  power : Int
  closed : Bool
  deriving DecidableEq, Repr

/-- The rounding interval of a positive finite number, in quarters of its last place. The gap below
a power of two is half as wide as the one above, save at the bottom of the range. A number halfway
between two goes to the one with the even significand. -/
def interval (x : Binary64) : Interval :=
  let e := x.exponent
  let significand := if e = 0 then x.fraction else x.fraction + 1 <<< 52
  let below := if x.fraction = 0 ∧ 1 < e then 1 else 2
  { low := 4 * significand - below
    value := 4 * significand
    high := 4 * significand + 2
    power := max e 1 - 1077
    closed := significand % 2 = 0 }

namespace Interval

/-- A power of ten above the value, by at most two places: a number of `k` binary digits has at
most `0.30103 · k + 1` decimal ones. -/
def coarsest (i : Interval) : Int :=
  (i.value.log2 + 1 + i.power) * 30103 / 100000 + 1

/-- The decimal rounds to the value. -/
def contains (i : Interval) (d : Decimal) : Bool :=
  let n := d.digits * Nat.pow 10 d.scale.toNat <<< (-i.power).toNat
  let unit := Nat.pow 10 (-d.scale).toNat <<< i.power.toNat
  if i.closed then i.low * unit ≤ n && n ≤ i.high * unit else i.low * unit < n && n < i.high * unit

/-- The decimal of the grid `10 ^ scale` that lies in the interval, the nearer one if both
neighbours of the value do, and the upper one if they are equally near. -/
def onGrid? (i : Interval) (scale : Int) : Option Decimal :=
  let step := Nat.pow 10 scale.toNat <<< (-i.power).toNat
  let value := i.value * Nat.pow 10 (-scale).toNat <<< i.power.toNat
  let lower : Decimal := ⟨value / step, scale⟩
  let upper : Decimal := ⟨value / step + 1, scale⟩
  if i.contains lower && (2 * (value % step) < step || !i.contains upper) then some lower
  else if i.contains upper then some upper
  else none

/-- The shortest decimal in the interval, which is on the coarsest grid that has a hit. Seventeen
digits always suffice, so twenty grids are enough. -/
def shortest? (i : Interval) : Option Decimal :=
  let top := i.coarsest
  (List.range 20).findSome? fun n : Nat => (i.onGrid? (top - n)).map (Decimal.strip 17)

end Interval

end Assembler.Binary64
