import ApiGraph.Text.Case
import ApiGraph.Text.Cut

/-!
The words of an identifier, and the forms of it that are used as names: the flat form, which is
all words in lower case without anything between them, the snake form with an underscore between
them, and the column form, in which only dashes change.

A word ends at a separator, which is dropped, and between two characters where the letter case or
the kind of character changes. Two separators in a row have an empty word between them.
-/

namespace ApiGraph.Naming

def isSeparator (c : Char) : Bool := c == '_' || c == '-' || c == ' '

/-- The kinds of character that word boundaries are drawn between. -/
inductive Kind where
  | upper
  | lower
  | digit
  | other
deriving DecidableEq

def Kind.of (c : Char) : Kind :=
  if c.isDigit then .digit
  else if Text.isUpper c then .upper
  else if Text.isLower c then .lower
  else .other

/-- Whether a word ends after the first character, judged by that one and the next two. In an
acronym the last capital belongs to the word that follows. -/
def endsWord (c : Char) : List Char → Bool
  | [] => false
  | d :: rest =>
    match Kind.of c, Kind.of d with
    | .lower, .upper => true
    | .lower, .digit => true
    | .upper, .digit => true
    | .digit, .lower => true
    | .digit, .upper => true
    | .upper, .upper =>
      match rest with
      | e :: _ => Kind.of e == .lower
      | [] => false
    | _, _ => false

/-- Puts a character in front of the first word. -/
def extend (c : Char) : List (List Char) → List (List Char)
  | [] => [[c]]
  | word :: rest => (c :: word) :: rest

/-- The words of a text; an empty text counts as one empty word. -/
def split : List Char → List (List Char)
  | [] => [[]]
  | c :: rest =>
    if isSeparator c then [] :: split rest
    else if endsWord c rest then [c] :: split rest
    else extend c (split rest)

/-- The words of an identifier in lower case. The empty identifier has none. -/
def words (ident : String) : List (List Char) :=
  if ident.toList.isEmpty then [] else (split ident.toList).map Text.lower

def flat (ident : String) : String := String.ofList (words ident).flatten

def snakeChars (ident : String) : List Char := Text.join ['_'] (words ident)

/-- The name of a column or relationship for a property: the case is kept, and dashes become
underscores. -/
def columnIdent (ident : String) : String :=
  String.ofList (ident.toList.map fun c => if c = '-' then '_' else c)

end ApiGraph.Naming
