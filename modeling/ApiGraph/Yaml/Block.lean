import ApiGraph.Yaml.Cell

/-!
Block scalars: lines that are indented alike, kept as they are or folded. A sign in the head says
what becomes of the line breaks at the end, a digit how far the lines are indented.
-/

namespace ApiGraph.Yaml

/-- What becomes of the line breaks at the end. -/
inductive Chomping where
  /-- All are dropped. -/
  | strip
  /-- One is kept. -/
  | clip
  /-- All are kept. -/
  | keep
deriving DecidableEq

structure BlockHead where
  chomping : Chomping := .clip
  /-- How much further the lines are indented than what surrounds them, if that is given. -/
  increment : Option Nat := none

private def sign? (c : Char) : Option Chomping :=
  if c = '+' then some .keep else if c = '-' then some .strip else none

private def increment? (c : Char) : Option Nat :=
  if c.isDigit && c != '0' then some (c.toNat - '0'.toNat) else none

/-- Reads the sign and the digit, in either order. -/
def blockHead (cells : List Cell) : BlockHead × List Cell :=
  match cells with
  | c :: rest =>
    match sign? c.char, increment? c.char with
    | some chomping, _ =>
      match rest with
      | d :: rest' =>
        match increment? d.char with
        | some n => (⟨chomping, some n⟩, rest')
        | none => (⟨chomping, none⟩, rest)
      | [] => (⟨chomping, none⟩, [])
    | none, some n =>
      match rest with
      | d :: rest' =>
        match sign? d.char with
        | some chomping => (⟨chomping, some n⟩, rest')
        | none => (⟨.clip, some n⟩, rest)
      | [] => (⟨.clip, some n⟩, [])
    | none, none => ({}, cells)
  | [] => ({}, [])

/-- Skips blanks and a comment and then the line break. -/
def endHead (cells : List Cell) : Option (List Cell) :=
  let rest := cells.dropWhile fun c => isBlank c.char
  let rest :=
    if nextIs (· == '#') rest then rest.dropWhile fun c => !isBreak c.char else rest
  match rest with
  | [] => some []
  | c :: rest => if isBreak c.char then some rest else none

/-- Empty lines, and the widest indentation among them and the line that follows. -/
structure EmptyLines where
  breaks : List Char
  widest : Nat
  rest : List Cell

/-- Skips indentation and empty lines. Without a given indentation all spaces count as such. -/
def emptyLines? (indent : Option Nat) (breaks : List Char) (widest : Nat) :
    List Cell → Option EmptyLines
  | [] => some ⟨breaks, widest, []⟩
  | c :: rest =>
    let inIndent := indent.all (c.column < ·)
    if inIndent && c.char == ' ' then
      emptyLines? indent breaks (max widest (c.column + 1)) rest
    else if inIndent && c.char == '\t' then none
    else if isBreak c.char then
      emptyLines? indent (breaks ++ [c.char]) (max widest c.column) rest
    else some ⟨breaks, max widest c.column, c :: rest⟩

/-- A block scalar in the making: its text in reverse order, the break that ended the last line,
and the empty lines after it. -/
structure BlockText where
  read : List Char := []
  lastBreak : List Char := []
  empty : List Char := []
  /-- Whether the last line began with a blank. -/
  indented : Bool := false

/-- Takes up a line. When folding, the break between two lines becomes a space, or nothing if
empty lines follow it, unless one of the two begins with a blank. -/
def BlockText.addLine (t : BlockText) (folds : Bool) (line : List Char) (lineBreak : List Char) :
    BlockText :=
  let indented := line.head?.any isBlank
  let between :=
    if folds && t.lastBreak.head? == some '\n' && !t.indented && !indented then
      (if t.empty.isEmpty then [' '] else []) ++ t.empty
    else t.lastBreak ++ t.empty
  { read := line.reverse ++ between.reverse ++ t.read
    lastBreak := lineBreak
    empty := []
    indented }

/-- Reads lines that are indented by the given number of columns, at most so many. -/
def blockLines? (folds : Bool) (indent : Nat) (t : BlockText) (cells : List Cell) :
    Nat → Option (BlockText × List Cell)
  | 0 => some (t, cells)
  | lines + 1 =>
    match cells with
    | [] => some (t, [])
    | c :: _ =>
      if c.column ≠ indent then some (t, cells)
      else
        let line := chars (cells.takeWhile fun c => !isBreak c.char)
        let rest := cells.dropWhile fun c => !isBreak c.char
        let t := t.addLine folds line (chars (rest.take 1))
        (emptyLines? (some indent) [] 0 (rest.drop 1)).bind fun found =>
          blockLines? folds indent { t with empty := found.breaks } found.rest lines

def BlockText.finish (t : BlockText) (chomping : Chomping) : List Char :=
  t.read.reverse ++
    match chomping with
    | .strip => []
    | .clip => t.lastBreak
    | .keep => t.lastBreak ++ t.empty

/-- Reads a block scalar after its first sign. The surroundings are indented by `outer` columns, or
not at all. -/
def block? (folds : Bool) (outer : Option Nat) (cells : List Cell) :
    Option (List Char × List Cell) := do
  let (head, rest) := blockHead cells
  let rest ← endHead rest
  let given := head.increment.map (outer.getD 0 + ·)
  let found ← emptyLines? given [] 0 rest
  let indent := given.getD (max found.widest ((outer.map (· + 1)).getD 1))
  let (t, rest) ← blockLines? folds indent { empty := found.breaks } found.rest found.rest.length
  return (t.finish head.chomping, rest)

end ApiGraph.Yaml
