import ApiGraph.Command.Run

/-!
The command line. The files that a run may need are read first, into a file system as a value: the
files named in the arguments, the option file, and, over and over, each file that a reference in
one of them may lead to. The run itself only sees that value, and what it changed is written back.
-/

namespace ApiGraph

/-- The paths that a command names, with the option file that it looks for. -/
def Command.paths : Command → List Path
  | .compile input output options =>
    let beside := (input.parent?.getD Path.here).join Options.fileName
    input :: beside :: (output.toList ++ options.toList)
  | .merge input output => input :: output.toList
  | .mergeSources master sources output => master :: (sources ++ output.toList)

/-- The paths of the files that a document refers to. -/
def Json.referencedPaths (j : Json) : List Path :=
  let note (raw : String) : StateM (List String) String := do
    modify (raw :: ·)
    return raw
  ((j.mapRefsM note).run []).2.filterMap fun raw =>
    match Reference.ofText raw with
    | .ok (.external path _) => some path
    | _ => none

def locationOf (absolute : String) : Location :=
  ((Text.split '/' absolute.toList).filter fun piece => !piece.isEmpty).map String.ofList

/-- Reads what stands at a path, if anything does. -/
def takeUp (tree : FileTree) (path : Path) : IO FileTree := do
  try
    let real ← IO.FS.realPath path.text
    if ← real.isDir then return tree.makeDirectory (locationOf real.toString)
    else return tree.putFile (locationOf real.toString) (← IO.FS.readFile real)
  catch _ => return tree

/-- Reads what stands at a path and everything on the way to it. -/
def takeUpAll (tree : FileTree) (path : Path) : IO FileTree :=
  (List.range path.pieces.length).foldlM
    (fun tree n => takeUp tree (Path.ofPieces (path.pieces.take (n + 1)))) tree

/-- Reads the files at the paths, and those that may be referred to from one of the directories. -/
partial def gather (tree : FileTree) (directories : List Path) (seen : List Path) :
    List Path → IO FileTree
  | [] => return tree
  | path :: rest => do
    if path ∈ seen then gather tree directories seen rest
    else
      let tree ← takeUpAll tree path
      let directories :=
        match tree.canonicalize path with
        | .ok canonical => (canonical.parent?.toList ++ directories).eraseDups
        | .error _ => directories
      let referenced := (tree.documents.flatMap Json.referencedPaths).eraseDups
      let candidates := directories.flatMap fun d => referenced.map d.join
      let seen := path :: seen
      gather tree directories seen
        (rest ++ candidates.filter fun c => c ∉ seen && c ∉ rest)

/-- Writes the files that are new or have changed. -/
def writeBack (before after : FileTree) : IO Unit :=
  for (location, entry) in after.entries do
    match entry with
    | .file text =>
      if before.entry? location ≠ some entry then
        IO.FS.writeFile (FileTree.textOf location).text text
    | .directory => pure ()

end ApiGraph

open ApiGraph in
def main (arguments : List String) : IO UInt32 := do
  let workingDirectory := locationOf (← IO.currentDir).toString
  let start := FileTree.makeDirectory { workingDirectory } workingDirectory
  let paths :=
    match Request.ofArguments arguments with
    | .run command => command.paths
    | _ => []
  let files ← gather start [] [] paths
  let outcome := runProgram files arguments
  writeBack files outcome.files
  IO.print outcome.output
  if let some message := outcome.error then IO.eprintln ("error: " ++ message)
  if let some usage := outcome.usage then IO.eprint usage
  return UInt32.ofNat outcome.exitCode
