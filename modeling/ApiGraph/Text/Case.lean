import ApiGraph.Text.CaseTable

/-!
Letter case by the Unicode rules: when a character is upper or lower case, and the lower case of
a text, in which a capital sigma at the end of a word becomes the final sigma.
-/

namespace ApiGraph.Text

/-- Whether a code point lies in a run that visits every `step`-th one. -/
private def onRun (n first last step : Nat) : Bool :=
  first ≤ n && n ≤ last && (n - first) % step == 0

private def within (n : Nat) (ranges : List (Nat × Nat)) : Bool :=
  ranges.any fun (first, last) => first ≤ n && n ≤ last

/-- The lower case of one character. The dotted capital I is the one character whose lower case
is two characters long. -/
def lowerChar (c : Char) : List Char :=
  if c.toNat < 128 then [c.toLower]
  else if c.toNat = 0x130 then ['i', Char.ofNat 0x307]
  else match CaseTable.lower.find? fun (first, last, step, _) => onRun c.toNat first last step with
    | some (_, _, _, shift) => [Char.ofNat ((c.toNat : Int) + shift).toNat]
    | none => [c]

/-- Whether a character is not its own upper case. -/
def changesInUpper (c : Char) : Bool :=
  if c.toNat < 128 then c.isLower
  else CaseTable.hasUpper.any fun (first, last, step) => onRun c.toNat first last step

/-- Whether a character is not its own lower case. -/
def changesInLower (c : Char) : Bool := lowerChar c != [c]

/-- A character is upper case if it is its own upper case but not its own lower case. -/
def isUpper (c : Char) : Bool := !changesInUpper c && changesInLower c

/-- A character is lower case if it is its own lower case but not its own upper case. -/
def isLower (c : Char) : Bool := changesInUpper c && !changesInLower c

def isCaseIgnorable (c : Char) : Bool :=
  if c.toNat < 128 then c ∈ ['\'', '.', ':', '^', '\x60'] else within c.toNat CaseTable.ignorable

def isCased (c : Char) : Bool :=
  if c.toNat < 128 then c.isAlpha else within c.toNat CaseTable.cased

/-- Whether a cased letter follows, with nothing but case-ignorable characters before it. -/
private def meetsCased (cs : List Char) : Bool :=
  match cs.dropWhile isCaseIgnorable with
  | c :: _ => isCased c
  | [] => false

/-- The lower case of what follows the given characters, which stand in reverse order. -/
def lowerAfter (before : List Char) : List Char → List Char
  | [] => []
  | c :: rest =>
    (if c = 'Σ' then (if meetsCased before && !meetsCased rest then ['ς'] else ['σ'])
     else lowerChar c) ++ lowerAfter (c :: before) rest

def lower (cs : List Char) : List Char := lowerAfter [] cs

end ApiGraph.Text
