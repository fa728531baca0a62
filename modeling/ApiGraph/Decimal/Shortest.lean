import ApiGraph.Decimal.Binary64

/-!
The shortest decimal of a double: of all decimals that round to the number those with the fewest
digits, and of these the nearest one, a tie going to the even last digit.
-/

namespace ApiGraph.Decimal

/-- The whole number `digits` times a power of ten. -/
structure Digits where
  digits : Nat
  power : Int
deriving DecidableEq, Repr

/-- The reals that round to a positive double, as whole numbers of one unit: the number itself and
the ends of the interval, which belong to it if the mantissa is even. -/
structure Interval where
  low : Nat
  value : Nat
  high : Nat
  closed : Bool
  /-- The unit is `unitNum / unitDen`. -/
  unitNum : Nat
  unitDen : Nat

/-- Half the way to either neighbour. Below a power of two the neighbours stand twice as dense. -/
def Interval.of (x : Binary64) : Interval :=
  let narrow := x.mantissa = twoTo 52 ∧ Binary64.leastExponent < x.exponent
  let m := x.mantissa
  let e := x.exponent - 2
  { low := if narrow then 4 * m - 1 else 4 * m - 2
    value := 4 * m
    high := 4 * m + 2
    closed := m % 2 = 0
    unitNum := if 0 ≤ e then twoTo e.toNat else 1
    unitDen := if 0 ≤ e then 1 else twoTo (-e).toNat }

/-- Whether `num / den` units lie in the interval. -/
def Interval.holds (i : Interval) (num den : Nat) : Bool :=
  if i.closed then i.low * den ≤ num && num ≤ i.high * den
  else i.low * den < num && num < i.high * den

/-- The power of ten at or below the positive quotient, from a first guess that is not above it. -/
def decimalOrder (num den : Nat) (guess : Int) : Nat → Int
  | 0 => guess
  | tries + 1 =>
    let next := guess + 1
    let reached :=
      if 0 ≤ next then den * tenTo next.toNat ≤ num else den ≤ num * tenTo (-next).toNat
    if reached then decimalOrder num den next tries else guess

/-- On the grid of multiples of `10 ^ power`, the point of the interval nearest to its value. -/
def Interval.onGrid? (i : Interval) (power : Int) : Option Nat :=
  -- one grid step is `step.1 / step.2` units
  let step : Nat × Nat :=
    if 0 ≤ power then (tenTo power.toNat * i.unitDen, i.unitNum)
    else (i.unitDen, tenTo (-power).toNat * i.unitNum)
  let below := i.value * step.2 / step.1
  let above := below + 1
  let down := i.value * step.2 - below * step.1
  let up := above * step.1 - i.value * step.2
  let belowFits := i.holds (below * step.1) step.2 && below != 0
  let aboveFits := i.holds (above * step.1) step.2
  if belowFits && aboveFits then
    if down < up then some below else if up < down then some above
    else if below % 2 = 0 then some below else some above
  else if belowFits then some below
  else if aboveFits then some above
  else none

/-- Tries ever finer grids, at most as many as the count says. -/
def Interval.search (i : Interval) (power : Int) : Nat → Digits
  | 0 => ⟨0, power⟩
  | grids + 1 =>
    match i.onGrid? power with
    | some digits => ⟨digits, power⟩
    | none => i.search (power - 1) grids

/-- Takes zeros off the end of the digits. -/
def Digits.trimmed (d : Digits) : Nat → Digits
  | 0 => d
  | steps + 1 =>
    if d.digits % 10 = 0 ∧ d.digits ≠ 0 then Digits.trimmed ⟨d.digits / 10, d.power + 1⟩ steps
    else d

/-- The shortest decimal of a number without its sign; seventeen digits are always enough. -/
def shortest (x : Binary64) : Digits :=
  if x.isZero then ⟨0, 0⟩
  else
    let i := Interval.of x
    let (num, den) := x.ratio
    -- 30103 / 100000 is just above the decimal logarithm of two
    let guess := (Binary64.binaryOrder num den * 30103).fdiv 100000 - 1
    let order := decimalOrder num den guess 3
    (i.search order 18).trimmed 20

end ApiGraph.Decimal
