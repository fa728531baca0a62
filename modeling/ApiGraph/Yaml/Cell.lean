/-!
Characters of a YAML text with their places, and the classes of characters that the grammar is
built on. All line breaks but the two Unicode separators are read as a line feed.
-/

namespace ApiGraph.Yaml

/-- A character with its line and column and its number in the text, all from zero. -/
structure Cell where
  char : Char
  line : Nat
  column : Nat
  index : Nat
deriving DecidableEq, Repr

/-- The two Unicode separators, which stay as they are. -/
def isSeparatorBreak (c : Char) : Bool := c.toNat == 0x2028 || c.toNat == 0x2029

def isBreak (c : Char) : Bool := c == '\n' || isSeparatorBreak c

def isBlank (c : Char) : Bool := c == ' ' || c == '\t'

/-- Brings line breaks to one form. -/
def unifyBreaks : List Char → List Char
  | [] => []
  | '\r' :: '\n' :: rest => '\n' :: unifyBreaks rest
  | c :: rest => (if c = '\r' ∨ c.toNat = 0x85 then '\n' else c) :: unifyBreaks rest

/-- The characters that may stand in a text. -/
def isAllowed (c : Char) : Bool :=
  let n := c.toNat
  n == 9 || n == 10 || n == 13 || (0x20 ≤ n && n ≤ 0x7E) || n == 0x85 ||
  (0xA0 ≤ n && n ≤ 0xD7FF) || (0xE000 ≤ n && n ≤ 0xFFFD) || 0x10000 ≤ n

def cellsFrom (line column index : Nat) : List Char → List Cell
  | [] => []
  | c :: rest =>
    ⟨c, line, column, index⟩ ::
      (if isBreak c then cellsFrom (line + 1) 0 (index + 1) rest
       else cellsFrom line (column + 1) (index + 1) rest)

/-- The cells of a text, if all of its characters are allowed. A byte order mark at its start takes
up a column and is not read. -/
def cells? (text : String) : Option (List Cell) :=
  let cs := unifyBreaks text.toList
  if !text.toList.all isAllowed then none
  else if cs.head?.any (·.toNat == 0xFEFF) then some (cellsFrom 0 1 1 (cs.drop 1))
  else some (cellsFrom 0 0 0 cs)

/-- Whether the text ends here, or a blank or a line break follows. -/
def blankOrEnd : List Cell → Bool
  | [] => true
  | c :: _ => isBlank c.char || isBreak c.char

def startsWith (lead : List Char) (cells : List Cell) : Bool :=
  (cells.take lead.length).map (·.char) == lead

/-- Whether three dashes or three dots stand here on their own, at the start of a line. -/
def atDocumentMark (cells : List Cell) : Bool :=
  match cells with
  | c :: _ =>
    c.column == 0 && (startsWith ['-', '-', '-'] cells || startsWith ['.', '.', '.'] cells) &&
      blankOrEnd (cells.drop 3)
  | [] => false

def chars (cells : List Cell) : List Char := cells.map (·.char)

def nextIs (p : Char → Bool) : List Cell → Bool
  | [] => false
  | c :: _ => p c.char

/-- What stands between two pieces of a scalar: blanks within a line, or line breaks. -/
inductive Gap where
  | blanks (read : List Char)
  /-- The first line break, unless it was escaped, and those after it. -/
  | breaks (first : Option Char) (others : List Char)

namespace Gap

def none : Gap := .blanks []

def isBreaks : Gap → Bool
  | .blanks _ => false
  | .breaks .. => true

def isNone : Gap → Bool
  | .blanks [] => true
  | _ => false

/-- The gap with one more blank or line break. Blanks at the end and at the start of a line do not
count. -/
def extend (gap : Gap) (c : Char) : Gap :=
  match gap, isBreak c with
  | .blanks read, false => .blanks (read ++ [c])
  | .blanks _, true => .breaks (some c) []
  | .breaks first others, false => .breaks first others
  | .breaks first others, true => .breaks first (others ++ [c])

/-- What a gap is read as: one line break becomes a space, and of several the first is dropped. -/
def folded : Gap → List Char
  | .blanks read => read
  | .breaks (some '\n') [] => [' ']
  | .breaks (some '\n') others => others
  | .breaks (some c) others => c :: others
  | .breaks .none others => others

end Gap

end ApiGraph.Yaml
