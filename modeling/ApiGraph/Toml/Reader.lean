import ApiGraph.Json.Basic
import ApiGraph.Toml.Quoted

/-!
Reading TOML text whose values are strings, arrays and tables. Numbers, dates and booleans are
refused, as no option has such a value, and so are arrays of tables.

A table may be defined once: by a header, by dotted keys that stand together, or in place. A
header may come after longer headers that imply its table.
-/

namespace ApiGraph.Toml

/-- How a table came to be. -/
inductive Definition where
  /-- By its own header, or as the top table. -/
  | header
  /-- By a longer header only. -/
  | implied
  /-- By dotted keys. -/
  | dotted
  /-- As a value in place. -/
  | inline
deriving DecidableEq, Repr

inductive Value where
  | string (text : String)
  | array (items : List Value)
  | table (definition : Definition) (entries : List (String × Value))

namespace Value

mutual

def toJson : Value → Json
  | .string text => .string text
  | .array items => .array (itemsToJson items)
  | .table _ entries => .object (entriesToJson entries)

def itemsToJson : List Value → List Json
  | [] => []
  | v :: rest => toJson v :: itemsToJson rest

def entriesToJson : List (String × Value) → List (String × Json)
  | [] => []
  | (key, v) :: rest => (key, toJson v) :: entriesToJson rest

end

end Value

/-- Puts a value under a dotted key, of which every part but the last names a table of dotted
keys. -/
def insertDotted (value : Value) : List String → Table Value → Option (Table Value)
  | [], _ => none
  | [key], t => if t.contains key then none else some (t.insert key value)
  | key :: rest, t =>
    match t.get? key with
    | none => (insertDotted value rest []).map fun inner => t.insert key (.table .dotted inner)
    | some (.table .dotted inner) =>
      (insertDotted value rest inner).map fun inner => t.insert key (.table .dotted inner)
    | some _ => none

/-- Defines the table of a header. -/
def openTable : List String → Table Value → Option (Table Value)
  | [], _ => none
  | [key], t =>
    match t.get? key with
    | none => some (t.insert key (.table .header []))
    | some (.table .implied inner) => some (t.insert key (.table .header inner))
    | some _ => none
  | key :: rest, t =>
    match t.get? key with
    | none => (openTable rest []).map fun inner => t.insert key (.table .implied inner)
    | some (.table definition inner) =>
      if definition = .inline then none
      else (openTable rest inner).map fun inner => t.insert key (.table definition inner)
    | some _ => none

/-- Changes the table that a header has opened. -/
def inTable (change : Table Value → Option (Table Value)) :
    List String → Table Value → Option (Table Value)
  | [], t => change t
  | key :: rest, t =>
    match t.get? key with
    | some (.table definition inner) =>
      (inTable change rest inner).map fun inner => t.insert key (.table definition inner)
    | _ => none

def isBareKeyChar (c : Char) : Bool := c.isAlphanum || c == '_' || c == '-'

def skipSpaces (cs : List Char) : List Char := cs.dropWhile isSpace

/-- One part of a key. -/
def keyPart? (cs : List Char) : Option (String × List Char) :=
  match cs with
  | '"' :: rest => (basic false .plain [] rest).map fun (key, rest) => (String.ofList key, rest)
  | '\'' :: rest => (literal false [] rest).map fun (key, rest) => (String.ofList key, rest)
  | _ =>
    let key := cs.takeWhile isBareKeyChar
    if key.isEmpty then none else some (String.ofList key, cs.dropWhile isBareKeyChar)

/-- A key: parts with dots and blanks between them. At most so many parts are read. -/
def key? (cs : List Char) : Nat → Option (List String × List Char)
  | 0 => none
  | parts + 1 => do
    let (part, rest) ← keyPart? (skipSpaces cs)
    match skipSpaces rest with
    | '.' :: rest =>
      let (others, rest) ← key? rest parts
      return (part :: others, rest)
    | rest => return ([part], rest)

/-- Skips a comment, up to the end of its line. -/
def skipComment (cs : List Char) : Option (List Char) :=
  match cs with
  | '#' :: rest =>
    let rest := rest.dropWhile (!isControl ·)
    if rest.isEmpty || (lineBreak? rest).isSome then some rest else none
  | _ => some cs

/-- Skips blanks, comments and line breaks. At most so many lines are skipped. -/
def skipLines (cs : List Char) : Nat → Option (List Char)
  | 0 => some cs
  | lines + 1 => do
    let rest ← skipComment (skipSpaces cs)
    match lineBreak? rest with
    | some rest => skipLines rest lines
    | none => some rest

mutual

/-- Reads a value; values nest at most so deep, all steps counted. -/
def value? (cs : List Char) : Nat → Option (Value × List Char)
  | 0 => none
  | steps + 1 =>
    match cs with
    | '[' :: rest => do
      let (items, rest) ← items? (← skipLines rest rest.length) steps
      return (.array items, rest)
    | '{' :: rest => do
      let (entries, rest) ← entries? (← skipLines rest rest.length) [] steps
      return (.table .inline entries, rest)
    | _ => (string? cs).map fun (text, rest) => (.string (String.ofList text), rest)

def items? (cs : List Char) : Nat → Option (List Value × List Char)
  | 0 => none
  | steps + 1 =>
    match cs with
    | ']' :: rest => some ([], rest)
    | _ => do
      let (item, rest) ← value? cs steps
      let rest ← skipLines rest rest.length
      match rest with
      | ',' :: rest =>
        let (items, rest) ← items? (← skipLines rest rest.length) steps
        return (item :: items, rest)
      | ']' :: rest => return ([item], rest)
      | _ => none

def entries? (cs : List Char) (read : Table Value) : Nat → Option (Table Value × List Char)
  | 0 => none
  | steps + 1 =>
    match cs with
    | '}' :: rest => some (read, rest)
    | _ => do
      let (key, rest) ← key? cs cs.length
      let '=' :: rest := rest | none
      let (value, rest) ← value? (skipSpaces rest) steps
      let read ← insertDotted value key read
      let rest ← skipLines rest rest.length
      match rest with
      | ',' :: rest => entries? (← skipLines rest rest.length) read steps
      | '}' :: rest => return (read, rest)
      | _ => none

end

/-- What follows a statement: blanks and a comment, then the end of the line. -/
def endLine (cs : List Char) : Option (List Char) := do
  let rest ← skipComment (skipSpaces cs)
  if rest.isEmpty then some [] else lineBreak? rest

/-- Reads statements one by one, at most so many, with the header under which they stand. -/
def statements (top : Table Value) (header : List String) (cs : List Char) :
    Nat → Option (Table Value)
  | 0 => none
  | left + 1 => do
    match ← skipLines cs cs.length with
    | [] => return top
    | '[' :: rest =>
      let (key, rest) ← key? rest rest.length
      let ']' :: rest := rest | none
      statements (← openTable key top) key (← endLine rest) left
    | rest =>
      let (key, rest) ← key? rest rest.length
      let '=' :: rest := rest | none
      let (value, rest) ← value? (skipSpaces rest) rest.length
      statements (← inTable (insertDotted value key) header top) header (← endLine rest) left

/-- The text without a byte order mark. -/
def withoutMark : List Char → List Char
  | c :: rest => if c.toNat = 0xFEFF then rest else c :: rest
  | [] => []

def ofText? (text : String) : Option Json := do
  let cs := withoutMark text.toList
  let top ← statements [] [] cs (cs.length + 1)
  return .object (Value.entriesToJson top)

end ApiGraph.Toml
