import ApiGraph.Document.Format
import ApiGraph.Reference.Basic

/-!
The reference strings of a document: how many there are, and going over them. In an object the
string under `$ref` comes first and then everything under the other keys; nothing below the key
`$ref` itself is entered.
-/

namespace ApiGraph

namespace Json

/-- Puts a string under `$ref` into entries that have the key. -/
def setRef (ref : Option String) : List (String × Json) → List (String × Json)
  | [] => []
  | (key, value) :: rest =>
    match ref with
    | some text => (key, if key = refKey then .string text else value) :: setRef ref rest
    | none => (key, value) :: setRef ref rest

mutual

/-- The number of objects that hold a reference string, those below `$ref` included. -/
def linkCount : Json → Nat
  | .array items => linkCountItems items
  | .object fields => (if (aliasTarget? (.object fields)).isSome then 1 else 0) +
      linkCountFields fields
  | _ => 0

def linkCountItems : List Json → Nat
  | [] => 0
  | j :: rest => linkCount j + linkCountItems rest

def linkCountFields : List (String × Json) → Nat
  | [] => 0
  | (_, j) :: rest => linkCount j + linkCountFields rest

end

mutual

/-- Replaces every reference string by what the function gives for it. -/
def mapRefsM [Monad m] (f : String → m String) : Json → m Json
  | .array items => do return .array (← mapRefsItemsM f items)
  | .object fields => do
    let ref ←
      match aliasTarget? (.object fields) with
      | some raw => do pure (some (← f raw))
      | none => pure none
    return .object (setRef ref (← mapRefsFieldsM f fields))
  | j => pure j

def mapRefsItemsM [Monad m] (f : String → m String) : List Json → m (List Json)
  | [] => pure []
  | j :: rest => do
    let j ← mapRefsM f j
    return j :: (← mapRefsItemsM f rest)

def mapRefsFieldsM [Monad m] (f : String → m String) :
    List (String × Json) → m (List (String × Json))
  | [] => pure []
  | (key, j) :: rest => do
    let j ← if key = refKey then pure j else mapRefsM f j
    return (key, j) :: (← mapRefsFieldsM f rest)

end

end Json

/-- The number of reference strings in all documents of a file system. -/
def FileTree.linkCount (files : FileTree) : Nat := Json.linkCountItems files.documents

end ApiGraph
