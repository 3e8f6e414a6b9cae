import StructuralTypes.Number

set_option autoImplicit false

namespace StructuralTypes.Number

/-- A positive finite number with the interval of reals that round to it. The three bounds count
quarters of the last place, so that every midpoint between neighbours is an integer. -/
structure Interval where
  low : Nat
  value : Nat
  high : Nat
  /-- The power of two of one quarter of the last place. -/
  scale : Int
  /-- Midpoints round to an even significand. -/
  closed : Bool

/-- The gap below a power of two is half the gap above it. -/
def interval (n : Number) : Interval where
  low := 4 * n.significand - (if n.fraction = 0 ∧ 1 < n.exponentField then 1 else 2)
  value := 4 * n.significand
  high := 4 * n.significand + 2
  scale := n.exponent - 2
  closed := n.significand % 2 == 0

/-- The number `coefficient * 10 ^ power`. -/
structure Decimal where
  coefficient : Nat
  power : Int

namespace Interval

/-- An interval counts in quarters: `x` of them are `x * up / down` units of the decimal grid
`10 ^ power`. -/
def up (i : Interval) (power : Int) : Nat := Nat.pow 2 i.scale.toNat * Nat.pow 10 (-power).toNat

def down (i : Interval) (power : Int) : Nat := Nat.pow 2 (-i.scale).toNat * Nat.pow 10 power.toNat

def contains (i : Interval) (d : Decimal) : Bool :=
  let point := d.coefficient * i.down d.power
  let low := i.low * i.up d.power
  let high := i.high * i.up d.power
  if i.closed then low ≤ point && point ≤ high else low < point && point < high

/-- The point of one decimal grid that stands for the interval: the nearer of the value's two
neighbours, the upper one when they are equally near. -/
def pointOn (i : Interval) (power : Int) : Option Decimal :=
  let target := i.value * i.up power
  let unit := i.down power
  let below : Decimal := ⟨target / unit, power⟩
  let above : Decimal := ⟨target / unit + 1, power⟩
  match i.contains below, i.contains above with
  | true, true => if 2 * (target % unit) < unit then some below else some above
  | true, false => some below
  | false, true => some above
  | false, false => none

/-- The value itself, digit for digit. -/
def exact (i : Interval) : Decimal :=
  ⟨i.value * Nat.pow 2 i.scale.toNat * Nat.pow 5 (-i.scale).toNat, min i.scale 0⟩

/-- The point of the coarsest grid that has one, going down from `10 ^ power`. -/
def coarsest (i : Interval) : Nat → Int → Decimal
  | 0, _ => i.exact
  | steps + 1, power =>
    match i.pointOn power with
    | some d => d
    | none => i.coarsest steps (power - 1)

end Interval

/-- The decimal with the fewest digits that reads back as `n`. No finite number reaches `10 ^ 309`,
and each is a point of the grid `10 ^ (-1076)`. -/
def shortest (n : Number) : Decimal := n.interval.coarsest 1386 309

namespace Decimal

/-- The digits of `n`, with zeros in front up to `width`. -/
def padded (width n : Nat) : String :=
  let digits := Nat.toDigits 10 n
  String.ofList (List.replicate (width - digits.length) '0' ++ digits)

/-- Positional notation, with a point only in front of a fraction. -/
def render (d : Decimal) : String :=
  if 0 ≤ d.power then
    padded 1 (d.coefficient * Nat.pow 10 d.power.toNat)
  else
    let places := (-d.power).toNat
    let unit := Nat.pow 10 places
    padded 1 (d.coefficient / unit) ++ "." ++ padded places (d.coefficient % unit)

end Decimal

/-- The text of a number, with a sign also in front of a negative zero. -/
def render (n : Number) : String :=
  if n.isNaN then "NaN"
  else
    (if n.isNegative then "-" else "") ++
      if n.isInfinite then "inf" else if n.isZero then "0" else n.shortest.render

end StructuralTypes.Number
