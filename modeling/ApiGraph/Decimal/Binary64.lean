import ApiGraph.Decimal.Power

/-!
Finite double-precision numbers as exact data: a sign, a whole mantissa and a power of two, with
rounding to the nearest value and ties to the even mantissa. No machine arithmetic is involved,
so every operation can be computed and reasoned about.
-/

namespace ApiGraph.Decimal

/-- The number `mantissa * 2 ^ exponent`, negated if `negative`. In the one form that the rounding
below produces, the mantissa has 53 bits or the exponent is the least one, -1074. -/
structure Binary64 where
  negative : Bool
  mantissa : Nat
  exponent : Int
deriving DecidableEq, Repr

namespace Binary64

def leastExponent : Int := -1074

def greatestExponent : Int := 971

def zero : Binary64 := ⟨false, 0, leastExponent⟩

def isZero (x : Binary64) : Bool := x.mantissa == 0

def neg (x : Binary64) : Binary64 := { x with negative := !x.negative }

/-- The quotient rounded to the nearest whole number, a tie to the even one. -/
def divEven (num den : Nat) : Nat :=
  let q := num / den
  let r := num % den
  if 2 * r < den then q else if den < 2 * r then q + 1 else if q % 2 = 0 then q else q + 1

/-- Whether `num / den` reaches `2 ^ e`. -/
private def reaches (num den : Nat) (e : Int) : Bool :=
  if 0 ≤ e then den * twoTo e.toNat ≤ num else den ≤ num * twoTo (-e).toNat

/-- The power of two at or below the positive quotient `num / den`. -/
def binaryOrder (num den : Nat) : Int :=
  let e := (num.log2 : Int) - den.log2
  if reaches num den e then e else e - 1

/-- `num / den` divided by `2 ^ e` and rounded to a whole number. -/
def scaledDown (num den : Nat) (e : Int) : Nat :=
  if 0 ≤ e then divEven num (den * twoTo e.toNat) else divEven (num * twoTo (-e).toNat) den

/-- The double nearest to `num / den`, if it is finite. -/
def ofRatio (num den : Nat) : Option Binary64 :=
  if num = 0 then some zero
  else
    let e := max (binaryOrder num den - 52) leastExponent
    let m := scaledDown num den e
    let (m, e) := if m = twoTo 53 then (twoTo 52, e + 1) else (m, e)
    if greatestExponent < e then none else some ⟨false, m, e⟩

/-- The double nearest to `digits * 10 ^ power`, if it is finite. -/
def ofDecimal (digits : Nat) (power : Int) : Option Binary64 :=
  if 0 ≤ power then ofRatio (digits * tenTo power.toNat) 1
  else ofRatio digits (tenTo (-power).toNat)

/-- The absolute value as a quotient of whole numbers. -/
def ratio (x : Binary64) : Nat × Nat :=
  if 0 ≤ x.exponent then (x.mantissa * twoTo x.exponent.toNat, 1)
  else (x.mantissa, twoTo (-x.exponent).toNat)

/-- The rounded product of two numbers without their signs, if it is finite. -/
def times (x y : Binary64) : Option Binary64 :=
  ofRatio (x.ratio.1 * y.ratio.1) (x.ratio.2 * y.ratio.2)

/-- The rounded quotient by a number that is not zero, without the signs, if it is finite. -/
def dividedBy (x y : Binary64) : Option Binary64 :=
  ofRatio (x.ratio.1 * y.ratio.2) (x.ratio.2 * y.ratio.1)

end Binary64

end ApiGraph.Decimal
