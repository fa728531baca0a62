import ApiGraph.Yaml.Block
import ApiGraph.Yaml.Plain
import ApiGraph.Yaml.Property
import ApiGraph.Yaml.Quoted

/-!
The tokens of a text, with the block collections that its indentation shows. A key is known only
by the colon after it, so the place where one may have begun is kept until then: its token, and
that of the mapping that it opens, are put in afterwards. A key ends on its own line.
-/

namespace ApiGraph.Yaml

/-- A place where a key may have begun. -/
structure KeyPlace where
  /-- The number of tokens before it. -/
  number : Nat
  start : Cell
  /-- Whether nothing but a key may stand there. -/
  required : Bool

/-- How far a key may be from its colon. -/
def KeyPlace.reach : Nat := 1024

def KeyPlace.reaches (k : KeyPlace) (c : Cell) : Bool :=
  k.start.line == c.line && c.index ≤ k.start.index + KeyPlace.reach

structure Layout where
  /-- The tokens so far in reverse order. -/
  tokens : List Token := []
  /-- The columns of the open block collections, from the innermost. -/
  columns : List Nat := []
  key : Option KeyPlace := none
  /-- The possible keys before each of the open brackets, from the innermost. -/
  outerKeys : List (Option KeyPlace) := []
  keyAllowed : Bool := true

namespace Layout

def inFlow (s : Layout) : Bool := !s.outerKeys.isEmpty

def add (s : Layout) (token : Token) : Layout := { s with tokens := token :: s.tokens }

def allowKey (s : Layout) (allowed : Bool) : Layout := { s with keyAllowed := allowed }

/-- Closes the block collections that are indented further than the column. -/
def closeTo (s : Layout) (column : Nat) : Layout :=
  if s.inFlow then s
  else
    let closed := s.columns.takeWhile (column < ·)
    { s with
      columns := s.columns.dropWhile (column < ·)
      tokens := List.replicate closed.length .blockEnd ++ s.tokens }

def closeAll (s : Layout) : Layout :=
  if s.inFlow then s
  else { s with columns := [], tokens := List.replicate s.columns.length .blockEnd ++ s.tokens }

/-- Opens a block collection at the column, unless it is open. Its token is put before the last
few tokens. -/
def openAt (s : Layout) (column : Nat) (token : Token) (back : Nat) : Layout :=
  if s.inFlow || s.columns.head?.any (column ≤ ·) then s
  else
    { s with
      columns := column :: s.columns
      tokens := s.tokens.take back ++ token :: s.tokens.drop back }

/-- Gives up the possible key. -/
def dropKey? (s : Layout) : Option Layout :=
  if s.key.any (·.required) then none else some { s with key := none }

/-- Gives up the possible keys that the character does not belong to any more. -/
def dropPastKeys? (s : Layout) (c : Cell) : Option Layout :=
  let isPast (k : KeyPlace) : Bool := !k.reaches c
  if (s.key :: s.outerKeys).any fun key => key.any fun k => isPast k && k.required then none
  else
    let kept (key : Option KeyPlace) := key.filter fun k => !isPast k
    some { s with key := kept s.key, outerKeys := s.outerKeys.map kept }

/-- Notes that a key may begin here. -/
def noteKey? (s : Layout) (c : Cell) : Option Layout :=
  if s.keyAllowed then
    let required := !s.inFlow && s.columns.head? == some c.column
    s.dropKey?.map fun s => { s with key := some ⟨s.tokens.length, c, required⟩ }
  else some s

def openBracket? (s : Layout) (c : Cell) (token : Token) : Option Layout :=
  (s.noteKey? c).map fun s =>
    ({ s with key := none, outerKeys := s.key :: s.outerKeys }.allowKey true).add token

def closeBracket? (s : Layout) (token : Token) : Option Layout :=
  s.dropKey?.map fun s =>
    ({ s with key := s.outerKeys.head?.join, outerKeys := s.outerKeys.tail }.allowKey false).add
      token

/-- Opens a block collection at the column of a dash, a question mark, or a colon without a key. -/
def openHere? (s : Layout) (c : Cell) (token : Token) : Option Layout :=
  if s.inFlow then some s
  else if s.keyAllowed then some (s.openAt c.column token 0)
  else none

/-- A colon: what stands before it becomes a key if it can be one. -/
def colon? (s : Layout) (c : Cell) : Option Layout :=
  match s.key with
  | some k =>
    let back := s.tokens.length - k.number
    let s := { s with key := none, tokens := s.tokens.take back ++ Token.key :: s.tokens.drop back }
    some (((s.openAt k.start.column .blockMapping (back + 1)).allowKey false).add .value)
  | none =>
    (s.openHere? c .blockMapping).map fun s => (s.allowKey (!s.inFlow)).add .value

/-- Skips blanks, comments and line breaks, and tells whether a key may begin after them. A tab does
not count as a blank where a key may begin, and in a block a key may begin on each line. -/
def skip (inFlow : Bool) (keyAllowed inComment : Bool) : List Cell → List Cell × Bool
  | [] => ([], keyAllowed)
  | c :: rest =>
    if isBreak c.char then skip inFlow (keyAllowed || !inFlow) false rest
    else if inComment || c.char == '#' then skip inFlow keyAllowed true rest
    else if c.char == ' ' || (c.char == '\t' && (inFlow || !keyAllowed)) then
      skip inFlow keyAllowed false rest
    else (c :: rest, keyAllowed)

/-- Reads one token, which begins with the given character. -/
def read? (s : Layout) (c : Cell) (rest : List Cell) : Option (Layout × List Cell) := do
  let s := (← s.dropPastKeys? c).closeTo c.column
  let stands := blankOrEnd rest
  if c.column = 0 && c.char = '%' then none
  else if atDocumentMark (c :: rest) then
    let s := (← s.closeAll.dropKey?).allowKey false
    return (s.add (if c.char = '-' then .documentStart else .documentEnd), rest.drop 2)
  else if c.char = '[' then return (← s.openBracket? c .openSequence, rest)
  else if c.char = '{' then return (← s.openBracket? c .openMapping, rest)
  else if c.char = ']' then return (← s.closeBracket? .closeSequence, rest)
  else if c.char = '}' then return (← s.closeBracket? .closeMapping, rest)
  else if c.char = ',' then
    return ((← s.dropKey?).allowKey true |>.add .comma, rest)
  else if c.char = '-' && stands then
    let s ← s.openHere? c .blockSequence
    return ((← s.dropKey?).allowKey true |>.add .entry, rest)
  else if c.char = '?' && (s.inFlow || stands) then
    let s ← s.openHere? c .blockMapping
    return ((← s.dropKey?).allowKey (!s.inFlow) |>.add .key, rest)
  else if c.char = ':' && (s.inFlow || stands) then return (← s.colon? c, rest)
  else if (c.char = '|' || c.char = '>') && !s.inFlow then
    let (text, rest) ← block? (c.char = '>') s.columns.head? rest
    return ((← s.dropKey?).allowKey true |>.add (.scalar false (String.ofList text)), rest)
  else
    let s := (← s.noteKey? c).allowKey false
    if c.char = '*' then
      let (name, rest) ← name? rest
      return (s.add (.alias name), rest)
    else if c.char = '&' then
      let (name, rest) ← name? rest
      return (s.add (.anchor name), rest)
    else if c.char = '!' then
      let (tag, rest) ← tag? s.inFlow rest
      return (s.add (.tag tag), rest)
    else if c.char = '\'' || c.char = '"' then
      let (text, rest) ← quoted? (c.char = '\'') .text [] .none rest
      return (s.add (.scalar false (String.ofList text)), rest)
    else if startsPlain s.inFlow c.char rest then
      let indent := (s.columns.head?.map (· + 1)).getD 0
      let found ← plain? s.inFlow indent [] .none (c :: rest)
      return ((s.allowKey found.endsLine).add (.scalar true (String.ofList found.text)), found.rest)
    else none

/-- Reads at most so many tokens; the text must end with the last one. -/
def readAll? (s : Layout) (cells : List Cell) : Nat → Option (List Token)
  | 0 => none
  | count + 1 =>
    let (cells, keyAllowed) := skip s.inFlow s.keyAllowed false cells
    match cells with
    | [] => s.closeAll.dropKey?.map fun s => s.tokens.reverse
    | c :: rest =>
      ((s.allowKey keyAllowed).read? c rest).bind fun (s, rest) => readAll? s rest count

end Layout

/-- The tokens of a text. -/
def tokens? (text : String) : Option (List Token) :=
  (cells? text).bind fun cells => Layout.readAll? {} cells (cells.length + 1)

end ApiGraph.Yaml
