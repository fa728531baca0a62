import ApiGraph.Json.Quoted

/-!
String literals of TOML: basic ones with escapes and literal ones without, each on one line or on
several. A line break right after the opening of a string on several lines does not count, and
every line break reads as a line feed.
-/

namespace ApiGraph.Toml

/-- Control characters that may not stand in a line. -/
def isControl (c : Char) : Bool := (c.toNat < 32 && c != '\t') || c.toNat == 127

def isSpace (c : Char) : Bool := c == ' ' || c == '\t'

/-- The text without one line break at its start, if it starts with one. -/
def lineBreak? : List Char → Option (List Char)
  | '\n' :: rest => some rest
  | '\r' :: '\n' :: rest => some rest
  | _ => none

/-- What the reader of a basic string is in the middle of. -/
inductive Mode where
  | plain
  /-- After a backslash. -/
  | escape
  /-- So many hexadecimal digits are still to come. -/
  | hex (left value : Nat)
  /-- After a backslash and blanks: the line must end. -/
  | lineEnd
  /-- After a backslash at the end of a line: blanks and line breaks do not count. -/
  | skip

/-- A Unicode scalar value. -/
def scalar? (n : Nat) : Option Char := if n.isValidChar then some (Char.ofNat n) else none

/-- The characters after a backslash that stand for one other character. -/
def escapes : List (Char × Char) :=
  [('b', Char.ofNat 8), ('t', '\t'), ('n', '\n'), ('f', Char.ofNat 12), ('r', '\r'),
   ('e', Char.ofNat 27), ('"', '"'), ('\\', '\\')]

def hexLength? (c : Char) : Option Nat :=
  if c = 'x' then some 2 else if c = 'u' then some 4 else if c = 'U' then some 8 else none

/-- A run of quotes ends a string on several lines if there are three to five of them; all but the
last three belong to the string. -/
def closing? (quote : Char) (cs : List Char) : Option (Option (List Char × List Char)) :=
  let run := (cs.takeWhile (· == quote)).length
  if run < 3 then none
  else if run ≤ 5 then some (some (List.replicate (run - 3) quote, cs.drop run))
  else some none

/-- Reads a basic string up to its end; what was read stands in reverse order. -/
def basic (multiline : Bool) (mode : Mode) (read : List Char) :
    List Char → Option (List Char × List Char)
  | [] => none
  | c :: rest =>
    match mode with
    | .hex left value =>
      match Json.hexValue? c with
      | none => none
      | some digit =>
        let value := 16 * value + digit
        if left ≤ 1 then
          match scalar? value with
          | some d => basic multiline .plain (d :: read) rest
          | none => none
        else basic multiline (.hex (left - 1) value) read rest
    | .escape =>
      match escapes.lookup c, hexLength? c with
      | some d, _ => basic multiline .plain (d :: read) rest
      | none, some length => basic multiline (.hex length 0) read rest
      | none, none =>
        if !multiline then none
        else if isSpace c || (c == '\r' && rest.head? == some '\n') then
          basic multiline .lineEnd read rest
        else if c = '\n' then basic multiline .skip read rest
        else none
    | .lineEnd =>
      if isSpace c || (c == '\r' && rest.head? == some '\n') then basic multiline .lineEnd read rest
      else if c = '\n' then basic multiline .skip read rest
      else none
    | mode =>
      let skipping := match mode with | .skip => true | _ => false
      let lineBreak := c == '\n' || (c == '\r' && rest.head? == some '\n')
      if skipping && (isSpace c || lineBreak) then basic multiline .skip read rest
      else if c = '\\' then basic multiline .escape read rest
      else if c = '"' then
        if !multiline then some (read.reverse, rest)
        else
          match closing? '"' (c :: rest) with
          | some found => found.map fun (quotes, rest) => (read.reverse ++ quotes, rest)
          | none => basic multiline .plain (c :: read) rest
      else if multiline && lineBreak then
        basic multiline .plain (if c = '\r' then read else c :: read) rest
      else if isControl c then none
      else basic multiline .plain (c :: read) rest

/-- Reads a literal string up to its end. -/
def literal (multiline : Bool) (read : List Char) : List Char → Option (List Char × List Char)
  | [] => none
  | c :: rest =>
    if c = '\'' then
      if !multiline then some (read.reverse, rest)
      else
        match closing? '\'' (c :: rest) with
        | some found => found.map fun (quotes, rest) => (read.reverse ++ quotes, rest)
        | none => literal multiline (c :: read) rest
    else if multiline && (c == '\n' || (c == '\r' && rest.head? == some '\n')) then
      literal multiline (if c = '\r' then read else c :: read) rest
    else if isControl c then none
    else literal multiline (c :: read) rest

/-- Drops a line break at the start. -/
def withoutLineBreak (cs : List Char) : List Char := (lineBreak? cs).getD cs

/-- Reads any string literal. -/
def string? : List Char → Option (List Char × List Char)
  | '"' :: '"' :: '"' :: rest => basic true .plain [] (withoutLineBreak rest)
  | '"' :: rest => basic false .plain [] rest
  | '\'' :: '\'' :: '\'' :: rest => literal true [] (withoutLineBreak rest)
  | '\'' :: rest => literal false [] rest
  | _ => none

end ApiGraph.Toml
