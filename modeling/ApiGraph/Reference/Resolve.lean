import ApiGraph.Reference.Links

/-!
Following references, within a document and across files. A relative path is read from the
directory of the file in which the reference stands, and a target that is itself a reference is
followed further, until a node comes that is none or a target comes a second time.

Files are parsed once and then kept. The document in scope is never read from its file.
-/

namespace ApiGraph

/-- The document that references are read from, with its canonical path if it came from a file,
and the directory of its relative references. -/
structure Scope where
  document : Json
  file : Option Path
  baseDir : Path
  /-- The number of reference strings in the document, counted once. -/
  links : Nat := document.linkCount
  links_eq : links = document.linkCount := by exact rfl

/-- A target that was reached. -/
structure Resolved where
  node : Json
  /-- The title of the node, else the last segment of the fragment, else the name of the file. -/
  name : String
  /-- The directory from which references inside the node are read. -/
  baseDir : Path
  /-- The file of the node, unless it stands in the document in scope. -/
  file : Option Path
  fragment : Fragment
  /-- The one key of the target, from its file and its fragment. -/
  canonical : String

def Resolved.isInScope (r : Resolved) : Bool := r.file.isNone

/-- A file system with the documents that were loaded from it so far. -/
structure Resolver where
  files : FileTree
  /-- Documents by path. -/
  cache : Table Json := []
  /-- The number of reference strings in all files, counted once. -/
  links : Nat := files.linkCount
  links_eq : links = files.linkCount := by exact rfl

/-- Work that may fail, and that may load files even if it fails. -/
abbrev ResolveM := ExceptT Fault (StateM Resolver)

namespace Resolver

/-- A resolver that has loaded nothing yet. -/
def fresh (files : FileTree) : Resolver := { files }

def cachedFiles (r : Resolver) : Nat := r.cache.length

/-- Loads a document, once for each path. -/
def load (path : Path) : ResolveM Json := do
  let resolver ← get
  match resolver.cache.get? path.normal.text with
  | some document => return document
  | none =>
    let document ← resolver.files.load path
    set { resolver with cache := Table.insert resolver.cache path.normal.text document }
    return document

/-- Where a reference is written: in which file, if any, and the directory of relative paths. -/
structure Origin where
  file : Option Path
  baseDir : Path

/-- The canonical path of the file that a reference leads to, if it leads to a file. -/
def targetFile (files : FileTree) (origin : Origin) : Reference → Except Fault (Option Path)
  | .inFile _ => .ok origin.file
  | .external path fragment =>
    let joined := origin.baseDir.join path
    match files.canonicalize joined with
    | .ok canonical => .ok (some canonical)
    | .error .notFound =>
      .error (.brokenReference (Reference.external path fragment).text (.noFile joined))
    | .error fault => .error (.io joined fault)

/-- Whether a target file is that of the document in scope. -/
def inScope (scope : Scope) : Option Path → Bool
  | none => true
  | some target => scope.file.map Path.normal == some target.normal

def nameOf (node : Json) (fragment : Fragment) (file : Option Path) : String :=
  let title := (node.get? "title").bind Json.string?
  (title <|> fragment.lastSegment? <|> file.bind Path.stem?).getD "document"

/-- One step from a reference to its target. -/
def hop (scope : Scope) (origin : Origin) (ref : Reference) : ResolveM Resolved := do
  let target ← targetFile (← get).files origin ref
  let here := inScope scope target
  let document ← if here then pure scope.document else load (target.getD origin.baseDir)
  let some node := ref.fragment.lookup document
    | throw (.brokenReference ref.text .noTarget)
  let file := if here then none else target
  let home := file <|> scope.file
  return {
    node
    name := nameOf node ref.fragment home
    baseDir := if here then scope.baseDir else (target.bind Path.parent?).getD origin.baseDir
    file
    fragment := ref.fragment
    canonical := (home.map Path.text).getD "" ++ "#" ++ ref.fragment.text }

/-- Follows references from target to target, for at most so many steps. The chain holds the
targets that were passed. -/
def follow (scope : Scope) (chain : List String) (origin : Origin) (ref : Reference) :
    Nat → ResolveM Resolved
  | 0 => throw (.referenceCycle chain)
  | steps + 1 => do
    let target ← hop scope origin ref
    if target.canonical ∈ chain then throw (.referenceCycle (chain ++ [target.canonical]))
    match aliasTarget? target.node with
    | none => return target
    | some next =>
      let ref ← Reference.ofText next
      follow scope (chain ++ [target.canonical])
        ⟨target.file <|> scope.file, target.baseDir⟩ ref steps

/-- Every target after the first is given by a reference string in some document, so a chain with
more targets than that holds one of them twice. -/
def stepLimit (scope : Scope) (r : Resolver) : Nat := scope.links + r.links + 2

def resolve (scope : Scope) (ref : Reference) : ResolveM Resolved := do
  follow scope [] ⟨scope.file, scope.baseDir⟩ ref (stepLimit scope (← get))

def resolveText (scope : Scope) (raw : String) : ResolveM Resolved := do
  resolve scope (← Reference.ofText raw)

end Resolver

end ApiGraph
