import ApiGraph.Fault
import ApiGraph.Json.Pointer
import ApiGraph.Text.Blank

/-!
Reference strings: where a `$ref` points, as a file and a fragment of it, and the local references
that name a definition. Main statements elsewhere say when the printed form of a reference reads
back, and that the escaped form of a definition name is undone by `definitionName?`.
-/

namespace ApiGraph

/-- The key under which an object holds a reference string. -/
def refKey : String := "$ref"

/-- The part of a reference after the hash. -/
inductive Fragment where
  /-- The whole document. -/
  | document
  /-- A top-level key. -/
  | name (text : String)
  /-- A JSON pointer. -/
  | pointer (text : String)
deriving DecidableEq, Repr

namespace Fragment

def ofChars (cs : List Char) : Fragment :=
  match cs with
  | [] => .document
  | '/' :: _ => .pointer (String.ofList cs)
  | _ => .name (String.ofList cs)

def text : Fragment → String
  | .document => ""
  | .name text => text
  | .pointer text => text

/-- The last key on the way to the target, unless there is none or it is empty. -/
def lastSegment? : Fragment → Option String
  | .document => none
  | .name text => some text
  | .pointer text =>
    let last :=
      match Text.cutLast '/' text.toList with
      | some (_, last) => last
      | none => text.toList
    if last.isEmpty then none else some (String.ofList (Json.Pointer.unescape last))

/-- The node that a fragment names within a document. -/
def lookup (document : Json) : Fragment → Option Json
  | .document => some document
  | .name text => document.get? text
  | .pointer text => document.pointer? text.toList

end Fragment

/-- A reference string that has been read. -/
inductive Reference where
  | inFile (fragment : Fragment)
  | external (path : Path) (fragment : Fragment)
deriving DecidableEq, Repr

namespace Reference

/-- Reads a reference string; white space around it does not count, and addresses on the network
are refused. -/
def ofText (raw : String) : Except Fault Reference :=
  let cs := Text.trim raw.toList
  if cs.isEmpty || cs == ['#'] then .error (.badReference (String.ofList cs) .empty)
  else if Text.contains [':', '/', '/'] cs then .error (.badReference (String.ofList cs) .remote)
  else
    let (path, fragment) :=
      match Text.cutFirst '#' cs with
      | some (path, fragment) => (path, Fragment.ofChars fragment)
      | none => (cs, Fragment.document)
    if path.isEmpty then .ok (.inFile fragment)
    else .ok (.external ⟨String.ofList path⟩ fragment)

def text : Reference → String
  | .inFile fragment => "#" ++ fragment.text
  | .external path .document => path.text
  | .external path fragment => path.text ++ "#" ++ fragment.text

def isLocal : Reference → Bool
  | .inFile _ => true
  | .external .. => false

def fragment : Reference → Fragment
  | .inFile fragment => fragment
  | .external _ fragment => fragment

/-- A local reference as it reads from outside of the file in which it stands. -/
def within (r : Reference) (file : Path) : Reference :=
  match r with
  | .inFile fragment => .external file fragment
  | .external .. => r

end Reference

/-- The pointer to the table of definitions. -/
def definitionsPointer : String := "/components/schemas"

/-- How a local reference to a definition begins. -/
def definitionLead : List Char := "#/components/schemas/".toList

/-- The name of the definition that a local reference stands for, if it leads into the table of
definitions and no further. -/
def definitionName? (raw : String) : Option String :=
  match Text.dropLead? definitionLead raw.toList with
  | some segment =>
    if segment.isEmpty || segment.contains '/' then none
    else some (String.ofList (Json.Pointer.unescape segment))
  | none => none

/-- The local reference to a definition. -/
def definitionRef (name : String) : String :=
  String.ofList (definitionLead ++ Json.Pointer.escape name.toList)

/-- The reference string of a node that is itself a reference. -/
def aliasTarget? (node : Json) : Option String := (node.get? refKey).bind Json.string?

end ApiGraph
