import ApiGraph.Yaml.Cell
import ApiGraph.Yaml.Token

/-!
What may stand before a node: an anchor, which gives it a name, and a tag, which gives it a type.
An alias is a name that refers to an anchor.
-/

namespace ApiGraph.Yaml

def isNameChar (c : Char) : Bool := c.isAlphanum || c == '_' || c == '-'

/-- The characters of a tag; some more may stand in one that is given in full. -/
def isTagChar (inFull : Bool) (c : Char) : Bool :=
  isNameChar c ||
  c ∈ [';', '/', '?', ':', '@', '&', '=', '+', '$', '.', '!', '~', '*', '\'', '(', ')'] ||
  (inFull && c ∈ [',', '[', ']'])

private def span (p : Char → Bool) (cells : List Cell) : String × List Cell :=
  (String.ofList (chars (cells.takeWhile fun c => p c.char)), cells.dropWhile fun c => p c.char)

/-- The name after `&` or `*`. -/
def name? (cells : List Cell) : Option (String × List Cell) :=
  let (name, rest) := span isNameChar cells
  if name.isEmpty then none
  else if blankOrEnd rest || nextIs (· ∈ ['?', ':', ',', ']', '}', '%', '@', '\x60']) rest then
    some (name, rest)
  else none

private def tagText? (cells : List Cell) : Option (Tag × List Cell) :=
  match cells with
  | c :: rest =>
    if c.char = '<' then
      match span (isTagChar true) rest with
      | (text, d :: rest') => if d.char = '>' && !text.isEmpty then some (text, rest') else none
      | (_, []) => none
    else if c.char = '!' then
      let (name, rest') := span (isTagChar false) rest
      if name.isEmpty then none else some (coreTags ++ name, rest')
    else if nextIs (· == '!') (span isNameChar cells).2 then none
    else
      let (name, rest') := span (isTagChar false) cells
      some ("!" ++ name, rest')
  | [] => some ("!", [])

/-- The tag after `!`: in full between angle brackets, one that comes with the language after
another `!`, and else a local one. -/
def tag? (inFlow : Bool) (cells : List Cell) : Option (Tag × List Cell) := do
  let (tag, rest) ← tagText? cells
  if blankOrEnd rest || (inFlow && nextIs (· == ',') rest) then some (tag, rest) else none

end ApiGraph.Yaml
