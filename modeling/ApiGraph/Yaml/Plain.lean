import ApiGraph.Yaml.Cell

/-!
Plain scalars: text without quotes, which goes on over lines that are indented further than what
surrounds it.
-/

namespace ApiGraph.Yaml

def isFlowIndicator (c : Char) : Bool := c ∈ [',', '[', ']', '{', '}']

/-- Whether a plain scalar may begin here. -/
def startsPlain (inFlow : Bool) (c : Char) (rest : List Cell) : Bool :=
  if isBlank c || isBreak c then false
  else if c ∈ ['-', '?', ':', ',', '[', ']', '{', '}', '#', '&', '*', '!', '|', '>', '\'', '"', '%',
      '@', '\x60'] then
    (c == '-' && !nextIs isBlank rest) ||
      (!inFlow && (c == '?' || c == ':') && !blankOrEnd rest)
  else true

/-- A scalar that was read: its text, what follows it, and whether it ended with a line. -/
structure PlainText where
  text : List Char
  rest : List Cell
  endsLine : Bool

/-- Reads a plain scalar. What was read stands in reverse order; lines must be indented by the
given number of columns, unless the scalar stands in brackets. -/
def plain? (inFlow : Bool) (indent : Nat) (read : List Char) (gap : Gap) :
    List Cell → Option PlainText
  | [] => some ⟨read.reverse, [], gap.isBreaks⟩
  | c :: rest =>
    let stop : Option PlainText := some ⟨read.reverse, c :: rest, gap.isBreaks⟩
    if isBreak c.char then plain? inFlow indent read (gap.extend c.char) rest
    else if isBlank c.char then
      if gap.isBreaks && c.char == '\t' && c.column < indent then none
      else plain? inFlow indent read (gap.extend c.char) rest
    else if gap.isBreaks && !inFlow && c.column < indent then stop
    else if !gap.isNone && c.char == '#' then stop
    else if gap.isBreaks && atDocumentMark (c :: rest) then stop
    else if inFlow && c.char == ':' && nextIs (fun d => isFlowIndicator d || d == '?') rest then
      none
    else if (c.char == ':' && blankOrEnd rest) || (inFlow && isFlowIndicator c.char) then stop
    else plain? inFlow indent (c.char :: (gap.folded.reverse ++ read)) .none rest

end ApiGraph.Yaml
