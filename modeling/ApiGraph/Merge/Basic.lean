import ApiGraph.Reference.Resolve

/-!
Merging: every node that a document refers to in another file is brought into its table of
definitions, and the references are rewritten to local ones. A target is brought in once, under
its name; a definition that the document has under that name already wins. Targets may refer to
each other, since the name is taken before a target's own references are rewritten.
-/

namespace ApiGraph

structure Merged where
  document : Json
  /-- The canonical path of the document, if it came from a file. -/
  path : Option Path
  /-- The nodes brought in, by name, in the order in which they were met. -/
  inlined : Table Json

namespace Merge

/-- What stays the same during one merge. -/
structure Root where
  document : Json
  file : Option Path
  /-- The names of the document's own definitions. -/
  authored : List String
  links : Nat := document.linkCount
  links_eq : links = document.linkCount := by exact rfl

def Root.of (document : Json) (file : Option Path) : Root where
  document
  file
  authored :=
    (((document.pointer? definitionsPointer.toList).bind Json.fields?).map Table.keys).getD []

def Root.scope (root : Root) (baseDir : Path) : Scope where
  document := root.document
  file := root.file
  baseDir
  links := root.links
  links_eq := root.links_eq

/-- What a merge has done so far. -/
structure Walk where
  resolver : Resolver
  /-- The name that a target is referred to by. -/
  assigned : Table String := []
  /-- The target that a name was taken for. -/
  owners : Table String := []
  inlined : Table Json := []

abbrev WalkM := ExceptT Fault (StateM Walk)

/-- Uses the resolver of the walk, and keeps what it has loaded. -/
def withResolver (act : ResolveM α) : WalkM α := do
  let walk ← get
  let (result, resolver) := act.run.run walk.resolver
  set { walk with resolver }
  liftExcept result
where
  liftExcept : Except Fault α → WalkM α
    | .ok a => pure a
    | .error fault => throw fault

/-- Takes a name for a target that is to be brought in. -/
def Walk.reserve (walk : Walk) (name canonical : String) : Walk :=
  { walk with
    owners := Table.insert walk.owners name canonical
    assigned := Table.insert walk.assigned canonical name
    inlined := Table.insert walk.inlined name .null }

/-- The local form of a reference string that stands in the given file, or in the root. A target
that has not been met yet is brought in. -/
def rewriteRef (root : Root) (bring : Resolved → WalkM Json) (file : Option Path)
    (baseDir : Path) (raw : String) : WalkM String := do
  let ref ← Reference.ofText raw
  match ref.isLocal, file with
  | true, none => return raw
  | _, _ =>
    let ref := (file.map ref.within).getD ref
    let target ← withResolver (Resolver.resolve (root.scope baseDir) ref)
    if target.isInScope then return "#" ++ target.fragment.text
    let walk ← get
    match walk.assigned.get? target.canonical with
    | some name => return definitionRef name
    | none =>
      let name := target.name
      if name ∈ root.authored then
        set { walk with assigned := Table.insert walk.assigned target.canonical name }
        return definitionRef name
      match walk.owners.get? name with
      | some first => throw (.nameCollision name first target.canonical)
      | none =>
        if !target.node.isObject then throw (.cannotMerge (.targetNotObject raw))
        set (walk.reserve name target.canonical)
        let node ← bring target
        modify fun walk => { walk with inlined := Table.insert walk.inlined name node }
        return definitionRef name

/-- A target with its own references rewritten; targets are nested at most so deep. -/
def bring (root : Root) : Nat → Resolved → WalkM Json
  | 0, _ => do throw (.referenceCycle (← get).owners.values)
  | depth + 1, target =>
    target.node.mapRefsM (rewriteRef root (bring root depth) target.file target.baseDir)

/-- Every target is given by a reference string in some document and is brought in once, so
targets do not nest deeper than there are reference strings. -/
def depthLimit (root : Root) (resolver : Resolver) : Nat := root.links + resolver.links + 1

/-- The table of definitions of a document is changed; it is made if there is none. -/
def modifyDefinitions (document : Json) (change : Table Json → Table Json) :
    Except Fault Json := do
  let some top := document.fields? | .error (.cannotMerge .rootNotObject)
  let some components := ((Table.get? top "components").getD (.object [])).fields?
    | .error (.cannotMerge .componentsNotObject)
  let some schemas := ((Table.get? components "schemas").getD (.object [])).fields?
    | .error (.cannotMerge .schemasNotObject)
  let components := Table.insert components "schemas" (.object (change schemas))
  return .object (Table.insert top "components" (.object components))

/-- Adds definitions behind those that are there, which keep their names. -/
def addDefinitions (document : Json) (added : Table Json) : Except Fault Json :=
  if added.isEmpty then .ok document
  else modifyDefinitions document fun schemas =>
    added.foldl (fun t entry => Table.insertNew t entry.1 entry.2) schemas

/-- Merges a document whose relative references are read from the given directory. -/
def document (document : Json) (file : Option Path) (baseDir : Path) : ResolveM Merged := do
  if !document.isObject then throw (.cannotMerge .rootNotObject)
  let root := Root.of document file
  let resolver ← get
  let act := document.mapRefsM
    (rewriteRef root (bring root (depthLimit root resolver)) none baseDir)
  let (result, walk) := act.run.run { resolver }
  set walk.resolver
  let rewritten ← result
  return {
    document := ← addDefinitions rewritten walk.inlined
    path := file
    inlined := walk.inlined }

/-- Loads and merges a file. -/
def file (path : Path) : ResolveM Merged := do
  let files := (← get).files
  match files.canonicalize path with
  | .error fault => throw (.io path fault)
  | .ok canonical =>
    let root ← files.load canonical
    document root (some canonical) (canonical.parent?.getD Path.here)

end Merge

end ApiGraph
