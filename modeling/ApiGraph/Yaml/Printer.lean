import ApiGraph.Json.Number
import ApiGraph.Json.Quoted
import ApiGraph.Text.Cut
import ApiGraph.Yaml.Scalar
import ApiGraph.Yaml.Cell
import ApiGraph.Yaml.Quoted

/-!
YAML text of a value, without brackets but for empty collections. A mapping inside a mapping is
indented by two columns and a sequence is not; the first entry of a collection inside a sequence
stands on the line of the dash. Lines are never folded.
-/

namespace ApiGraph.Yaml

/-- The characters that may stand in a text as they are. -/
def isPrintable (c : Char) : Bool :=
  let n := c.toNat
  n == 10 || (0x20 ≤ n && n ≤ 0x7E) || (0xA0 ≤ n && n ≤ 0xD7FF) ||
  (0xE000 ≤ n && n ≤ 0xFFFD && n != 0xFEFF) || 0x10000 ≤ n

/-- Whether two neighbours somewhere in the list are so related. -/
def hasPair (r : Char → Char → Bool) : List Char → Bool
  | a :: b :: rest => r a b || hasPair r (b :: rest)
  | _ => false

def isBlankOrBreak (c : Char) : Bool := isBlank c || isBreak c

/-- Whether a plain scalar in a block would not be read as one. -/
def hasIndicator (cs : List Char) : Bool :=
  let leads :=
    match cs with
    | [] => false
    | c :: rest =>
      c ∈ ['#', ',', '[', ']', '{', '}', '&', '*', '!', '|', '>', '\'', '"', '%', '@', '\x60'] ||
      (c ∈ ['?', ':', '-'] && rest.head?.all isBlankOrBreak)
  leads || cs.take 3 == ['-', '-', '-'] || cs.take 3 == ['.', '.', '.'] ||
  hasPair (fun a b => a == ':' && isBlankOrBreak b) cs ||
  hasPair (fun a b => isBlankOrBreak a && b == '#') cs || cs.getLast? == some ':'

/-- How a text is written. -/
inductive Style where
  | plain
  | single
  | double
  | literal
deriving DecidableEq

/-- Texts with line breaks are written as they are between indented lines. Any other text is plain,
or quoted if it would be read as something else. Double quotes serve where nothing else does. -/
def Style.of (text : String) : Style :=
  let cs := text.toList
  let needsEscapes :=
    !cs.all isPrintable || hasPair (fun a b => a == ' ' && isBreak b) cs
  let inQuotes : Style :=
    if needsEscapes || hasPair (fun a b => isBreak a && b == ' ') cs then .double else .single
  let endsBlank (c : Option Char) : Bool := c.any fun c => c == ' ' || isBreak c
  if '\n' ∈ cs then
    if needsEscapes || cs.getLast? == some ' ' then .double else .literal
  else
    match ofPlain? text with
    | some (.string _) =>
      if isPaddedNumber text || needsEscapes || cs.any isBreak || endsBlank cs.head? ||
          endsBlank cs.getLast? || hasIndicator cs then
        inQuotes
      else .plain
    | _ => inQuotes

def spaces (count : Nat) : List Char := List.replicate count ' '

/-- Indents what stands after line breaks, of which the first may stand just before the text. -/
def indentLines (indent : Nat) (atBreak : Bool) : List Char → List Char
  | [] => []
  | c :: rest =>
    if isBreak c then c :: indentLines indent true rest
    else (if atBreak then spaces indent else []) ++ c :: indentLines indent false rest

/-- As many hexadecimal digits, in upper case. -/
def hexDigits (count n : Nat) : List Char :=
  let digits := (Nat.toDigits 16 n).map Char.toUpper
  List.replicate (count - digits.length) '0' ++ digits

/-- A character between double quotes. -/
def escapedChar (c : Char) : List Char :=
  if isPrintable c && !isBreak c && c != '"' && c != '\\' then [c]
  else
    match escapes.find? (·.2 == c) with
    | some (letter, _) => ['\\', letter]
    | none =>
      let n := c.toNat
      if n ≤ 0xFF then '\\' :: 'x' :: hexDigits 2 n
      else if n ≤ 0xFFFF then '\\' :: 'u' :: hexDigits 4 n
      else '\\' :: 'U' :: hexDigits 8 n

/-- The signs in the head of a literal text: its indentation, if it begins with a blank or a break,
and what becomes of the line breaks at its end. -/
def literalHead (cs : List Char) : List Char :=
  let indentation := if cs.head?.any fun c => c == ' ' || isBreak c then ['2'] else []
  let breaks := cs.reverse.takeWhile isBreak
  let chomping :=
    if breaks.isEmpty then ['-']
    else if 2 ≤ breaks.length || breaks.length == cs.length then ['+']
    else []
  '|' :: (indentation ++ chomping)

/-- A text, of which all lines but the first stand at the given column. -/
def scalarChars (indent : Nat) (text : String) : List Char :=
  let cs := text.toList
  match Style.of text with
  | .plain => cs
  | .single =>
    let inner := indentLines indent false (cs.flatMap fun c => if c = '\'' then [c, c] else [c])
    '\'' :: (inner ++ (if cs.getLast?.any isBreak then spaces indent else []) ++ ['\''])
  | .double => '"' :: (cs.flatMap escapedChar ++ ['"'])
  | .literal => literalHead cs ++ '\n' :: indentLines indent true cs

/-- Ends a line that has not ended yet. -/
def ended (cs : List Char) : List Char := if cs.getLast?.any isBreak then cs else cs ++ ['\n']

/-- Rows at a column, the first of which stands there already. -/
def rows (indent : Nat) (rs : List (List Char)) : List Char := Text.join (spaces indent) rs

/-- The size of the longest key that may stand before its colon, in bytes. -/
def keyLimit : Nat := 128

def isSimpleKey (key : String) : Bool :=
  !key.toList.any isBreak && key.utf8ByteSize ≤ keyLimit

/-- What stands before a value in a mapping at the given column. -/
def keyChars (indent : Nat) (key : String) : List Char :=
  if isSimpleKey key then scalarChars (indent + 2) key ++ [':']
  else '?' :: ' ' :: (ended (scalarChars (indent + 2) key) ++ spaces indent ++ [':'])

mutual

/-- A value that begins at the given column, with the line break after it. -/
def valueChars (indent : Nat) : Json → List Char
  | .null => ['n', 'u', 'l', 'l', '\n']
  | .bool true => ['t', 'r', 'u', 'e', '\n']
  | .bool false => ['f', 'a', 'l', 's', 'e', '\n']
  | .number n => n.text ++ ['\n']
  | .string text => ended (scalarChars indent text)
  | .array [] => ['[', ']', '\n']
  | .object [] => ['{', '}', '\n']
  | .array items => rows indent (itemRows indent items)
  | .object fields => rows indent (fieldRows indent fields)

def itemRows (indent : Nat) : List Json → List (List Char)
  | [] => []
  | item :: rest => ('-' :: ' ' :: valueChars (indent + 2) item) :: itemRows indent rest

def fieldRows (indent : Nat) : List (String × Json) → List (List Char)
  | [] => []
  | (key, value) :: rest =>
    let onNextLine (column : Nat) : List Char := '\n' :: spaces column ++ valueChars column value
    let after :=
      if !isSimpleKey key then ' ' :: valueChars (indent + 2) value
      else
        match value with
        | .array (_ :: _) => onNextLine indent
        | .object (_ :: _) => onNextLine (indent + 2)
        | _ => ' ' :: valueChars (indent + 2) value
    (keyChars indent key ++ after) :: fieldRows indent rest

end

/-- The text of a document. -/
def text (j : Json) : String :=
  String.ofList
    (match j with
    | .string text => ended (scalarChars 2 text)
    | j => valueChars 0 j)

end ApiGraph.Yaml
