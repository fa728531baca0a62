import ApiGraph.Json.Quoted
import ApiGraph.Yaml.Cell

/-!
Quoted scalars. In single quotes only the quote itself is special and is written twice; double
quotes take escapes. In both a line break is folded.
-/

namespace ApiGraph.Yaml

/-- The characters after a backslash that stand for one other character. -/
def escapes : List (Char × Char) :=
  [('0', Char.ofNat 0), ('a', Char.ofNat 7), ('b', Char.ofNat 8), ('t', '\t'), ('\t', '\t'),
   ('n', '\n'), ('v', Char.ofNat 11), ('f', Char.ofNat 12), ('r', '\r'), ('e', Char.ofNat 27),
   (' ', ' '), ('"', '"'), ('/', '/'), ('\\', '\\'), ('N', Char.ofNat 0x85),
   ('_', Char.ofNat 0xA0), ('L', Char.ofNat 0x2028), ('P', Char.ofNat 0x2029)]

def hexLength? (c : Char) : Option Nat :=
  if c = 'x' then some 2 else if c = 'u' then some 4 else if c = 'U' then some 8 else none

/-- What the reader is in the middle of. -/
inductive QuotedMode where
  | text
  | escape
  /-- So many hexadecimal digits are still to come. -/
  | hex (left value : Nat)

/-- Reads a quoted scalar up to its closing quote. What was read stands in reverse order. -/
def quoted? (single : Bool) (mode : QuotedMode) (read : List Char) (gap : Gap) :
    List Cell → Option (List Char × List Cell)
  | [] => none
  | c :: rest =>
    match mode with
    | .escape =>
      if isBreak c.char then quoted? single .text read (.breaks none []) rest
      else
        match escapes.lookup c.char, hexLength? c.char with
        | some d, _ => quoted? single .text (d :: read) .none rest
        | none, some length => quoted? single (.hex length 0) read .none rest
        | none, none => none
    | .hex left value =>
      match Json.hexValue? c.char with
      | none => none
      | some digit =>
        let value := 16 * value + digit
        if left ≤ 1 then
          if value.isValidChar then quoted? single .text (Char.ofNat value :: read) .none rest
          else none
        else quoted? single (.hex (left - 1) value) read .none rest
    | .text =>
      if isBlank c.char || isBreak c.char then quoted? single .text read (gap.extend c.char) rest
      else if gap.isBreaks && atDocumentMark (c :: rest) then none
      else
        let read := gap.folded.reverse ++ read
        if single && c.char == '\'' then
          match rest with
          | d :: rest' =>
            if d.char = '\'' then quoted? single .text ('\'' :: read) .none rest'
            else some (read.reverse, rest)
          | [] => some (read.reverse, [])
        else if !single && c.char == '"' then some (read.reverse, rest)
        else if !single && c.char == '\\' then quoted? single .escape read .none rest
        else quoted? single .text (c.char :: read) .none rest

end ApiGraph.Yaml
