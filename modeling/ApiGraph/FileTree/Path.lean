import ApiGraph.Text.Cut

/-!
Paths of files as text, with components between slashes. A component that is empty or a dot counts
for nothing, except that a path may begin with a slash or a dot; nothing else is normalized.
-/

namespace ApiGraph

structure Path where
  text : String
deriving DecidableEq, Repr

namespace Path

def here : Path := ⟨"."⟩

/-- The pieces of a path between slashes. -/
def pieces (p : Path) : List (List Char) := Text.split '/' p.text.toList

def ofPieces (pieces : List (List Char)) : Path :=
  if pieces = [[]] then ⟨"/"⟩ else ⟨String.ofList (Text.join ['/'] pieces)⟩

def isAbsolute (p : Path) : Bool := Text.startsWith ['/'] p.text.toList

/-- A path read from a place: an absolute one replaces it, any other is put behind it. -/
def join (place p : Path) : Path :=
  if p.isAbsolute then p
  else if place.text.isEmpty || Text.endsWith ['/'] place.text.toList then
    ⟨place.text ++ p.text⟩
  else ⟨place.text ++ "/" ++ p.text⟩

/-- Whether a piece other than the first one counts for nothing. -/
def isIdle (piece : List Char) : Bool := piece.isEmpty || piece == ['.']

/-- The path without what counts for nothing. Paths that agree in this are the same path. -/
def normal (p : Path) : Path :=
  if p.text.isEmpty then p
  else ofPieces (p.pieces.take 1 ++ (p.pieces.drop 1).filter fun piece => !isIdle piece)

/-- Drops what counts for nothing from the end, in pieces that stand in reverse order. -/
def dropIdle : List (List Char) → List (List Char)
  | [] => []
  | [first] => [first]
  | last :: rest => if isIdle last then dropIdle rest else last :: rest

/-- The path without its last component; a root and the empty path have none. -/
def parent? (p : Path) : Option Path :=
  match dropIdle p.pieces.reverse with
  | [] => none
  | [first] => if first.isEmpty then none else some ⟨""⟩
  | _ :: before => some (ofPieces (dropIdle before).reverse)

/-- The last component, unless it is a dot, two dots or a root. -/
def fileName? (p : Path) : Option (List Char) :=
  match dropIdle p.pieces.reverse with
  | [] => none
  | last :: _ => if last.isEmpty || last == ['.'] || last == ['.', '.'] then none else some last

/-- The file name split at its last dot, unless that dot is its first character. -/
def stemAndExtension? (p : Path) : Option (List Char × Option (List Char)) :=
  p.fileName?.map fun name =>
    match Text.cutLast '.' name with
    | some (stem, extension) => if stem.isEmpty then (name, none) else (stem, some extension)
    | none => (name, none)

def extension? (p : Path) : Option String :=
  (p.stemAndExtension?.bind (·.2)).map String.ofList

def stem? (p : Path) : Option String := p.stemAndExtension?.map fun s => String.ofList s.1

end Path

end ApiGraph
