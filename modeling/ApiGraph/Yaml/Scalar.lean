import ApiGraph.Json.Basic
import ApiGraph.Json.Number
import ApiGraph.Json.Quoted
import ApiGraph.Yaml.Token

/-!
What a scalar stands for. A plain scalar without a tag is null, a boolean, a number or else a text;
any other scalar is what its tag says, and without a tag a text.
-/

namespace ApiGraph.Yaml

open Decimal

def isNull (text : String) : Bool := text ∈ ["null", "Null", "NULL", "~"]

def bool? (text : String) : Option Bool :=
  if text ∈ ["true", "True", "TRUE"] then some true
  else if text ∈ ["false", "False", "FALSE"] then some false
  else none

/-- Digits with a leading zero, which are read as a text. -/
def isPaddedNumber (text : String) : Bool :=
  match text.toList with
  | '0' :: rest => isPadded rest
  | '-' :: '0' :: rest => isPadded rest
  | '+' :: '0' :: rest => isPadded rest
  | _ => false
where
  isPadded (rest : List Char) : Bool := !rest.isEmpty && rest.all Char.isDigit

/-- The number with the given digits, of which there must be one. -/
def inBase? (base : Nat) (digits : List Char) : Option Nat :=
  if digits.isEmpty then none
  else
    digits.foldlM (fun n c => (Json.hexValue? c).bind fun digit =>
      if digit < base then some (base * n + digit) else none) 0

/-- The digits of a whole number, which may stand after the sign of their base. -/
def natural? (digits : List Char) : Option Nat :=
  match digits with
  | '0' :: 'x' :: rest => inBase? 16 rest
  | '0' :: 'o' :: rest => inBase? 8 rest
  | '0' :: 'b' :: rest => inBase? 2 rest
  | _ => inBase? 10 digits

/-- A whole number that fits 128 bits. -/
def integer? (text : String) : Option Int :=
  if isPaddedNumber text then none
  else
    match text.toList with
    | '-' :: digits => (natural? digits).bind fun n => if n ≤ twoTo 127 then some (-n) else none
    | '+' :: digits => (natural? digits).bind positive
    | digits => (natural? digits).bind positive
where
  positive (n : Nat) : Option Int := if n < twoTo 128 then some n else none

/-- Only whole numbers that fit 64 bits, with or without a sign, are numbers of a document. -/
def ofInteger? (n : Int) : Option Json :=
  if -(twoTo 63 : Int) ≤ n ∧ n < twoTo 64 then some (.number (.int n)) else none

/-- The exponent after the digits. -/
def exponent? : List Char → Option Int
  | [] => some 0
  | e :: rest =>
    if e = 'e' ∨ e = 'E' then
      match rest with
      | '-' :: digits => (inBase? 10 digits).map fun n => -(n : Int)
      | '+' :: digits => (inBase? 10 digits).map fun n => (n : Int)
      | digits => (inBase? 10 digits).map fun n => (n : Int)
    else none

/-- The double nearest to `digits * 10 ^ power`, if it is finite. It is not computed for numbers
that are far out of range. -/
def nearest? (digits : List Char) (power : Int) : Option Binary64 :=
  let order := (digits.dropWhile (· == '0')).length + power
  let value := JsonNumber.digitsValue digits
  if value = 0 || order < -400 then some Binary64.zero
  else if 400 < order then none
  else Binary64.ofDecimal value power

/-- A finite number with digits before or after a point, or both, and an exponent. -/
def decimal? (text : List Char) : Option Binary64 := do
  let whole := text.takeWhile Char.isDigit
  let rest := text.dropWhile Char.isDigit
  let (fraction, rest) :=
    match rest with
    | '.' :: r => (r.takeWhile Char.isDigit, r.dropWhile Char.isDigit)
    | r => ([], r)
  let digits := whole ++ fraction
  if digits.isEmpty then none
  else nearest? digits ((← exponent? rest) - fraction.length)

/-- A number with a point or an exponent. The infinities and the undefined number have no value in
a document and become null. -/
def float? (text : String) : Option Json :=
  if text ∈ [".nan", ".NaN", ".NAN"] then some .null
  else
    match text.toList with
    | '+' :: rest => positive? rest
    | '-' :: rest =>
      if isInfinity rest then some .null else (decimal? rest).map fun x => ofFloat x.neg
    | cs => positive? cs
where
  isInfinity (cs : List Char) : Bool :=
    cs ∈ [['.', 'i', 'n', 'f'], ['.', 'I', 'n', 'f'], ['.', 'I', 'N', 'F']]
  ofFloat (x : Binary64) : Json := .number (.float x)
  positive? (cs : List Char) : Option Json :=
    if isInfinity cs then some .null else (decimal? cs).map ofFloat

/-- What a plain scalar without a tag stands for. -/
def ofPlain? (text : String) : Option Json :=
  if text.isEmpty || isNull text then some .null
  else
    match bool? text, integer? text with
    | some b, _ => some (.bool b)
    | none, some n => ofInteger? n
    | none, none =>
      if isPaddedNumber text then some (.string text)
      else some ((float? text).getD (.string text))

/-- Whether a tag is that of a local type. -/
def isLocal (tag : Tag) : Bool := tag.toList.head? == some '!'

/-- What a scalar stands for. -/
def ofScalar? (tag : Option Tag) (isPlain : Bool) (text : String) : Option Json :=
  match tag with
  | none => if isPlain then ofPlain? text else some (.string text)
  | some tag =>
    if isLocal tag then none
    else if tag = coreTags ++ "bool" then (bool? text).map .bool
    else if tag = coreTags ++ "int" then (integer? text).bind ofInteger?
    else if tag = coreTags ++ "float" then float? text
    else if tag = coreTags ++ "null" then if isNull text then some .null else none
    else some (.string text)

end ApiGraph.Yaml
