import ApiGraph.Decimal.Shortest

/-!
How a double is laid out as text: digits with a point when the number is neither very small nor
very large, else one digit before the point and a power of ten.
-/

namespace ApiGraph.Decimal

/-- The decimal digits of a number, at least one. -/
def digitsOf (n : Nat) : List Char := Nat.toDigits 10 n

/-- Numbers from `10 ^ low` to below `10 ^ (high + 1)` are written with a point. -/
structure Layout where
  low : Int
  high : Int

/-- Numbers with a decimal order from -5 to 15 are written with a point and at least one digit
after it. -/
def plain : Layout := ⟨-5, 15⟩

/-- The digits with a point so that the first one stands for `10 ^ order`. -/
def positional (digits : List Char) (order : Int) : List Char :=
  if order < 0 then ['0', '.'] ++ List.replicate (-order - 1).toNat '0' ++ digits
  else
    let whole := order.toNat + 1
    let padded := digits ++ List.replicate (whole - digits.length) '0'
    let fraction := padded.drop whole
    padded.take whole ++ ['.'] ++ (if fraction.isEmpty then ['0'] else fraction)

/-- One digit, the others after a point, and the power of ten with its sign. -/
def scientific (digits : List Char) (order : Int) : List Char :=
  let fraction := digits.drop 1
  digits.take 1 ++ (if fraction.isEmpty then [] else '.' :: fraction) ++
    ['e', if order < 0 then '-' else '+'] ++ digitsOf order.natAbs

def Layout.text (layout : Layout) (x : Binary64) : List Char :=
  let d := shortest x
  let digits := digitsOf d.digits
  let order := d.power + digits.length - 1
  (if x.negative then ['-'] else []) ++
    (if layout.low ≤ order && order ≤ layout.high then positional digits order
     else scientific digits order)

end ApiGraph.Decimal
