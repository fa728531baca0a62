import ApiGraph.Json.Number
import ApiGraph.Json.Quoted
import ApiGraph.Text.Cut

/-!
JSON text of a value: compact, without any white space, or indented, with two spaces a level and
one line for every item and entry. An empty array or object stands on one line in both.
-/

namespace ApiGraph.Json

mutual

def compactChars : Json → List Char
  | .null => ['n', 'u', 'l', 'l']
  | .bool true => ['t', 'r', 'u', 'e']
  | .bool false => ['f', 'a', 'l', 's', 'e']
  | .number n => n.text
  | .string s => quoted s
  | .array items => '[' :: (Text.join [','] (compactItems items) ++ [']'])
  | .object fields => '{' :: (Text.join [','] (compactFields fields) ++ ['}'])

def compactItems : List Json → List (List Char)
  | [] => []
  | item :: rest => compactChars item :: compactItems rest

def compactFields : List (String × Json) → List (List Char)
  | [] => []
  | (key, value) :: rest => (quoted key ++ ':' :: compactChars value) :: compactFields rest

end

/-- A line break and the indentation of a level. -/
def newLine (level : Nat) : List Char := '\n' :: List.replicate (2 * level) ' '

/-- Lines between an opening and a closing bracket, one level further in. -/
def block (opening closing : Char) (level : Nat) (lines : List (List Char)) : List Char :=
  if lines.isEmpty then [opening, closing]
  else
    opening :: (newLine (level + 1) ++ Text.join (',' :: newLine (level + 1)) lines ++
      newLine level ++ [closing])

mutual

/-- The indented form of a value that begins on a line of the given level. -/
def indentedChars (level : Nat) : Json → List Char
  | .array items => block '[' ']' level (indentedItems (level + 1) items)
  | .object fields => block '{' '}' level (indentedFields (level + 1) fields)
  | .null => ['n', 'u', 'l', 'l']
  | .bool true => ['t', 'r', 'u', 'e']
  | .bool false => ['f', 'a', 'l', 's', 'e']
  | .number n => n.text
  | .string s => quoted s

def indentedItems (level : Nat) : List Json → List (List Char)
  | [] => []
  | item :: rest => indentedChars level item :: indentedItems level rest

def indentedFields (level : Nat) : List (String × Json) → List (List Char)
  | [] => []
  | (key, value) :: rest =>
    (quoted key ++ ':' :: ' ' :: indentedChars level value) :: indentedFields level rest

end

def compact (j : Json) : String := String.ofList j.compactChars

def indented (j : Json) : String := String.ofList (indentedChars 0 j)

end ApiGraph.Json
