import ApiGraph.Json.Basic
import ApiGraph.Decimal.Layout

/-!
Numbers as JSON text. Whole numbers in the exact range are read and written exactly. For any
other number the leading digits that fit 64 bits are taken as a whole number, rounded to a double,
and scaled by the double nearest to the power of ten, so that up to two roundings take place.
-/

namespace ApiGraph.JsonNumber

open Decimal

def greatestWord : Nat := twoTo 64 - 1

def text : JsonNumber → List Char
  | .int (.ofNat n) => digitsOf n
  | .int (.negSucc n) => '-' :: digitsOf (n + 1)
  | .float x => plain.text x

/-- A power of ten that is at most `10 ^ 308`, as a double. -/
private def powerOfTen (power : Nat) : Binary64 :=
  (Binary64.ofRatio (tenTo power) 1).getD Binary64.zero

/-- Divides by `10 ^ 308` so many times, and then by a smaller power of ten. Nothing is left to do
once the number has become zero. -/
private def shrink (x : Binary64) (rest : Nat) : Nat → Option Binary64
  | 0 => x.dividedBy (powerOfTen rest)
  | steps + 1 =>
    if x.isZero then some x else (x.dividedBy (powerOfTen 308)).bind fun y => shrink y rest steps

/-- The double for `significand * 10 ^ power`; there is none for a number that is too large. -/
def scaled (significand : Nat) (power : Int) : Option Binary64 := do
  let x ← Binary64.ofRatio significand 1
  if power < 0 then
    let steps := ((-power).toNat - 1) / 308
    shrink x ((-power).toNat - 308 * steps) steps
  else if power ≤ 308 then x.times (powerOfTen power.toNat)
  else if x.isZero then some x
  else none

/-- Reading digits into a whole number that fits 64 bits. Once a digit did not fit, the integer
digits that follow only count. -/
structure Significand where
  value : Nat
  /-- Digits before the point that were dropped. -/
  dropped : Nat

def addDigit? (value : Nat) (c : Char) : Option Nat :=
  let next := 10 * value + (c.toNat - '0'.toNat)
  if next ≤ greatestWord then some next else none

def Significand.ofInteger (value : Nat) : List Char → Significand
  | [] => ⟨value, 0⟩
  | c :: rest =>
    match addDigit? value c with
    | some next => ofInteger next rest
    | none => ⟨value, rest.length + 1⟩

/-- Takes up digits after the point as long as they fit; gives the number of those taken. -/
def takeFraction (value : Nat) : List Char → Nat × Nat
  | [] => (value, 0)
  | c :: rest =>
    match addDigit? value c with
    | some next => let (v, n) := takeFraction next rest; (v, n + 1)
    | none => (value, 0)

/-- The parts of a number's text: sign, integer digits, digits after a point, signed exponent. -/
structure Spelling where
  negative : Bool
  integer : List Char
  fraction : Option (List Char)
  exponent : Option (Bool × List Char)

def takeSign : List Char → Bool × List Char
  | '-' :: rest => (true, rest)
  | rest => (false, rest)

def splitExponent (cs : List Char) : Option (Option (Bool × List Char)) :=
  match cs with
  | [] => some none
  | e :: rest =>
    if e = 'e' ∨ e = 'E' then
      let (negative, digits) :=
        match rest with
        | '+' :: r => (false, r)
        | '-' :: r => (true, r)
        | r => (false, r)
      if digits.isEmpty || !digits.all Char.isDigit then none else some (some (negative, digits))
    else none

/-- A number as JSON spells it: no leading zero, and at least one digit wherever digits stand. -/
def Spelling.of? (cs : List Char) : Option Spelling := do
  let (negative, cs) := takeSign cs
  let integer := cs.takeWhile Char.isDigit
  let cs := cs.dropWhile Char.isDigit
  if integer.isEmpty || (integer.head? == some '0' && integer.length != 1) then none
  match cs with
  | '.' :: cs =>
    let fraction := cs.takeWhile Char.isDigit
    if fraction.isEmpty then none
    return ⟨negative, integer, some fraction, ← splitExponent (cs.dropWhile Char.isDigit)⟩
  | cs => return ⟨negative, integer, none, ← splitExponent cs⟩

def digitsValue (digits : List Char) : Nat :=
  digits.foldl (fun n c => 10 * n + (c.toNat - '0'.toNat)) 0

private def signed (negative : Bool) (x : Binary64) : JsonNumber :=
  .float (if negative then x.neg else x)

/-- A number without point and exponent that fits is exact, except `-0`, which is a double. -/
def Spelling.number? (s : Spelling) : Option JsonNumber :=
  let whole := Significand.ofInteger 0 s.integer
  match s.fraction, s.exponent with
  | none, none =>
    if whole.dropped = 0 then
      if !s.negative then some (.int whole.value)
      else if 0 < whole.value ∧ whole.value ≤ twoTo 63 then some (.int (-(whole.value : Int)))
      else (scaled whole.value 0).map (signed true)
    else (scaled whole.value whole.dropped).map (signed s.negative)
  | fraction, exponent =>
    let (value, taken) := takeFraction whole.value (fraction.getD [])
    let power : Int :=
      match exponent with
      | none => 0
      | some (negative, digits) =>
        if negative then -(digitsValue digits : Int) else digitsValue digits
    (scaled value ((whole.dropped : Int) - taken + power)).map (signed s.negative)

def ofText? (cs : List Char) : Option JsonNumber := (Spelling.of? cs).bind Spelling.number?

end ApiGraph.JsonNumber
