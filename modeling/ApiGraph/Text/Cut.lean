/-!
Taking text apart: cutting at a character, splitting at every occurrence, and removing a lead or
a tail. All functions work on lists of characters, and each is undone by putting the separator
back.
-/

namespace ApiGraph.Text

/-- What stands before and after the first occurrence of the separator. -/
def cutFirst (sep : Char) : List Char → Option (List Char × List Char)
  | [] => none
  | c :: rest =>
    if c = sep then some ([], rest)
    else (cutFirst sep rest).map fun (before, after) => (c :: before, after)

/-- What stands before and after the last occurrence of the separator. -/
def cutLast (sep : Char) : List Char → Option (List Char × List Char)
  | [] => none
  | c :: rest =>
    match cutLast sep rest with
    | some (before, after) => some (c :: before, after)
    | none => if c = sep then some ([], rest) else none

/-- The pieces between separators, one more than there are separators. -/
def split (sep : Char) : List Char → List (List Char)
  | [] => [[]]
  | c :: rest =>
    if c = sep then [] :: split sep rest
    else match split sep rest with
      | [] => [[c]]
      | piece :: pieces => (c :: piece) :: pieces

/-- Puts the separator between the pieces. -/
def join (sep : List Char) : List (List Char) → List Char
  | [] => []
  | [piece] => piece
  | piece :: pieces => piece ++ sep ++ join sep pieces

/-- What follows the given lead, if the text starts with it. -/
def dropLead? : List Char → List Char → Option (List Char)
  | [], rest => some rest
  | _ :: _, [] => none
  | l :: lead, c :: rest => if l = c then dropLead? lead rest else none

/-- What comes before the given tail, if the text ends in it. -/
def dropTail? (tail cs : List Char) : Option (List Char) :=
  (dropLead? tail.reverse cs.reverse).map List.reverse

def startsWith (lead cs : List Char) : Bool := (dropLead? lead cs).isSome

def endsWith (tail cs : List Char) : Bool := (dropTail? tail cs).isSome

/-- Whether the pattern stands somewhere in the text. -/
def contains (pattern : List Char) : List Char → Bool
  | [] => pattern.isEmpty
  | c :: rest => startsWith pattern (c :: rest) || contains pattern rest

end ApiGraph.Text
