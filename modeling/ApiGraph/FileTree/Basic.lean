import ApiGraph.FileTree.Path
import ApiGraph.Table

/-!
A file system as a value: files with their text and directories, each at its full path, and a
working directory from which relative paths are read. Looking up a path follows it component by
component from the root, so two dots lead out of a directory only if it exists.
-/

namespace ApiGraph

/-- Why a file could not be reached. -/
inductive IoFault where
  | notFound
  | notDirectory
  | isDirectory
  | invalidName
  | nameTooLong
deriving DecidableEq, Repr

def IoFault.text : IoFault → String
  | .notFound => "No such file or directory"
  | .notDirectory => "Not a directory"
  | .isDirectory => "Is a directory"
  | .invalidName => "a path holds a zero character"
  | .nameTooLong => "File name too long"

/-- What stands at a path. -/
inductive FileEntry where
  | file (text : String)
  | directory
deriving DecidableEq, Repr

/-- The names on the way from the root. -/
abbrev Location := List String

/-- Everything but the root directory, which is always there. -/
structure FileTree where
  entries : List (Location × FileEntry) := []
  workingDirectory : Location := []
deriving Repr

namespace FileTree

def lookup : List (Location × FileEntry) → Location → Option FileEntry
  | [], _ => none
  | (place, entry) :: rest, location =>
    if place = location then some entry else lookup rest location

def entry? (tree : FileTree) (location : Location) : Option FileEntry :=
  if location.isEmpty then some .directory else lookup tree.entries location

def put : List (Location × FileEntry) → Location → FileEntry → List (Location × FileEntry)
  | [], location, entry => [(location, entry)]
  | (place, old) :: rest, location, entry =>
    if place = location then (place, entry) :: rest else (place, old) :: put rest location entry

def textOf (location : Location) : Path := ⟨"/" ++ String.intercalate "/" location⟩

/-- The longest name, in bytes. -/
def nameLimit : Nat := 255

/-- Whether a text is the name of something within a directory. -/
def isName (name : String) : Bool :=
  !Path.isIdle name.toList && name.toList != ['.', '.'] && !name.toList.contains '/'

/-- Where relative paths start; what is no name counts for nothing. -/
def home (tree : FileTree) : Location := tree.workingDirectory.filter isName

/-- Follows components from a directory that exists. A file may stand only at the very end. -/
def follow (tree : FileTree) : Location → List (List Char) → Except IoFault Location
  | location, [] => .ok location
  | location, piece :: rest =>
    match tree.entry? location with
    | some .directory =>
      if Path.isIdle piece then follow tree location rest
      else if piece = ['.', '.'] then follow tree location.dropLast rest
      else
        let name := String.ofList piece
        if nameLimit < name.utf8ByteSize then .error .nameTooLong
        else
          let next := location ++ [name]
          if (tree.entry? next).isSome then follow tree next rest else .error .notFound
    | some (.file _) => .error .notDirectory
    | none => .error .notFound

/-- Where a path leads, if something stands there. -/
def locate (tree : FileTree) (p : Path) : Except IoFault Location :=
  if p.text.isEmpty then .error .notFound
  else if p.text.toList.contains (Char.ofNat 0) then .error .invalidName
  else tree.follow (if p.isAbsolute then [] else tree.home) p.pieces

/-- The path from the root without dots, if something stands there. -/
def canonicalize (tree : FileTree) (p : Path) : Except IoFault Path :=
  (tree.locate p).map textOf

def read (tree : FileTree) (p : Path) : Except IoFault String := do
  match tree.entry? (← tree.locate p) with
  | some (.file text) => .ok text
  | some .directory => .error .isDirectory
  | none => .error .notFound

def isFile (tree : FileTree) (p : Path) : Bool :=
  match tree.read p with
  | .ok _ => true
  | .error _ => false

/-- Makes a directory with all directories above it. -/
def makeDirectory (tree : FileTree) (location : Location) : FileTree :=
  let above := (List.range location.length).map fun n => location.take (n + 1)
  { tree with entries := above.foldl (fun entries l =>
      if (lookup entries l).isSome then entries else put entries l .directory) tree.entries }

/-- Puts a file in place, with all directories above it. -/
def putFile (tree : FileTree) (location : Location) (text : String) : FileTree :=
  let tree := tree.makeDirectory location.dropLast
  { tree with entries := put tree.entries location (.file text) }

/-- Writes a file into a directory that exists. -/
def write (tree : FileTree) (p : Path) (text : String) : Except IoFault FileTree := do
  match p.pieces.reverse with
  | [] => .error .notFound
  | name :: above =>
    if p.text.isEmpty then .error .notFound
    if p.text.toList.contains (Char.ofNat 0) then .error .invalidName
    let start := if p.isAbsolute then [] else tree.home
    let directory ← tree.follow start (above.reverse ++ [[]])
    if Path.isIdle name || name = ['.', '.'] then .error .isDirectory
    let name := String.ofList name
    if nameLimit < name.utf8ByteSize then .error .nameTooLong
    let location := directory ++ [name]
    match tree.entry? location with
    | some .directory => .error .isDirectory
    | _ => .ok { tree with entries := put tree.entries location (.file text) }

end FileTree

end ApiGraph
