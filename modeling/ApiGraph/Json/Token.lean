import ApiGraph.Json.Number
import ApiGraph.Json.Quoted

/-!
The tokens of JSON text. The text is read one character at a time by a small machine: a string
ends at its quote, a number or a word at the first character that cannot belong to it.
-/

namespace ApiGraph.Json

inductive Token where
  | openArray
  | closeArray
  | openObject
  | closeObject
  | comma
  | colon
  | null
  | bool (value : Bool)
  | number (value : JsonNumber)
  | string (value : String)
deriving DecidableEq, Repr

namespace Token

/-- What the machine is in the middle of. Characters that were read stand in reverse order. -/
inductive Mode where
  | between
  | word (read : List Char)
  | number (read : List Char)
  | string (read : List Char)
  /-- After a backslash. -/
  | escape (read : List Char)
  /-- Hexadecimal digits of a code unit; `high` is a high surrogate that waits for its low one. -/
  | hex (read : List Char) (high : Option Nat) (count value : Nat)
  /-- After a high surrogate, where a backslash is due. -/
  | lowEscape (read : List Char) (high : Nat)
  /-- After that backslash, where `u` is due. -/
  | lowUnit (read : List Char) (high : Nat)

def ofWord? (read : List Char) : Option Token :=
  match read.reverse with
  | ['n', 'u', 'l', 'l'] => some .null
  | ['t', 'r', 'u', 'e'] => some (.bool true)
  | ['f', 'a', 'l', 's', 'e'] => some (.bool false)
  | _ => none

def isWordChar (c : Char) : Bool := 'a' ≤ c && c ≤ 'z'

def isNumberChar (c : Char) : Bool :=
  c.isDigit || c == '-' || c == '+' || c == '.' || c == 'e' || c == 'E'

/-- The machine between tokens, with the tokens so far in reverse order. -/
def start (tokens : List Token) (c : Char) : Option (List Token × Mode) :=
  if c = ' ' ∨ c = '\n' ∨ c = '\t' ∨ c = '\r' then some (tokens, .between)
  else if c = '[' then some (.openArray :: tokens, .between)
  else if c = ']' then some (.closeArray :: tokens, .between)
  else if c = '{' then some (.openObject :: tokens, .between)
  else if c = '}' then some (.closeObject :: tokens, .between)
  else if c = ',' then some (.comma :: tokens, .between)
  else if c = ':' then some (.colon :: tokens, .between)
  else if c = '"' then some (tokens, .string [])
  else if c = '-' ∨ c.isDigit then some (tokens, .number [c])
  else if isWordChar c then some (tokens, .word [c])
  else none

/-- Ends a token that has no closing mark of its own. -/
def finish (tokens : List Token) : Mode → Option (List Token)
  | .between => some tokens
  | .word read => (ofWord? read).map (· :: tokens)
  | .number read => (JsonNumber.ofText? read.reverse).map fun n => .number n :: tokens
  | _ => none

/-- The character that a one-letter escape stands for. -/
def escaped? (c : Char) : Option Char :=
  if c = '"' ∨ c = '\\' ∨ c = '/' then some c
  else if c = 'b' then some (Char.ofNat 8)
  else if c = 'f' then some (Char.ofNat 12)
  else if c = 'n' then some '\n'
  else if c = 'r' then some '\r'
  else if c = 't' then some '\t'
  else none

/-- A complete code unit: a low surrogate must follow a high one, and only there it may stand. -/
def unit (read : List Char) (high : Option Nat) (value : Nat) : Option Mode :=
  match high with
  | some h =>
    if 0xDC00 ≤ value ∧ value ≤ 0xDFFF then
      some (.string (Char.ofNat (0x10000 + (h - 0xD800) * 0x400 + (value - 0xDC00)) :: read))
    else none
  | none =>
    if 0xD800 ≤ value ∧ value ≤ 0xDBFF then some (.lowEscape read value)
    else if 0xDC00 ≤ value ∧ value ≤ 0xDFFF then none
    else some (.string (Char.ofNat value :: read))

def step : List Token × Mode → Char → Option (List Token × Mode)
  | (tokens, .between), c => start tokens c
  | (tokens, .word read), c =>
    if isWordChar c then some (tokens, .word (c :: read))
    else (finish tokens (.word read)).bind (start · c)
  | (tokens, .number read), c =>
    if isNumberChar c then some (tokens, .number (c :: read))
    else (finish tokens (.number read)).bind (start · c)
  | (tokens, .string read), c =>
    if c = '"' then some (.string (String.ofList read.reverse) :: tokens, .between)
    else if c = '\\' then some (tokens, .escape read)
    else if c.toNat < 32 then none
    else some (tokens, .string (c :: read))
  | (tokens, .escape read), c =>
    if c = 'u' then some (tokens, .hex read none 0 0)
    else (escaped? c).map fun d => (tokens, .string (d :: read))
  | (tokens, .hex read high count value), c => do
    let value := 16 * value + (← hexValue? c)
    if count = 3 then return (tokens, ← unit read high value)
    return (tokens, .hex read high (count + 1) value)
  | (tokens, .lowEscape read high), c =>
    if c = '\\' then some (tokens, .lowUnit read high) else none
  | (tokens, .lowUnit read high), c =>
    if c = 'u' then some (tokens, .hex read (some high) 0 0) else none

/-- The tokens of a text, if it consists of nothing else. -/
def ofText? (cs : List Char) : Option (List Token) := do
  let (tokens, mode) ← cs.foldlM step ([], .between)
  return (← finish tokens mode).reverse

end Token

end ApiGraph.Json
