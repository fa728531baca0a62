import ApiGraph.OpenApi.PathItem
import ApiGraph.Reference.Basic

/-!
An API description: a document without references to other files, seen through its typed parts.
-/

namespace ApiGraph

structure Description where
  document : Json
  /-- The path of the document, if it came from a file. -/
  path : Option Path := none

namespace Description

/-- The version of the format that the document declares. -/
def version? (d : Description) : Option String := (d.document.get? "openapi").bind Json.string?

/-- The entries of an object that may be missing. -/
def entries (key : String) : Option Json → Except Fault (Table Json)
  | none => .ok []
  | some (.object fields) => .ok fields
  | some _ => .error (.notObject key)

/-- Reads the entries in order; a fault names the part that is malformed. -/
def readEntries (part : String → Part) (read : Json → Except Mismatch α) :
    List (String × Json) → Except Fault (List (String × α))
  | [] => .ok []
  | (name, j) :: rest => do
    let value ← (read j).mapError (.malformed (part name))
    return (name, value) :: (← readEntries part read rest)

/-- The definitions as they stand in the document. -/
def definitionTable (d : Description) : Except Fault (Table Json) :=
  entries "components/schemas" (d.document.pointer? definitionsPointer.toList)

/-- Every definition, in document order. -/
def definitions (d : Description) : Except Fault (Table Schema) := do
  readEntries .definition Schema.ofJson (← d.definitionTable)

/-- The servers of the whole API. -/
def servers (d : Description) : Except Fault (List Server) :=
  match d.document.get? "servers" with
  | none => .ok []
  | some j => (Json.toList Server.ofJson j).mapError (.malformed .servers)

/-- Every path item, in document order. -/
def paths (d : Description) : Except Fault (Table PathItem) := do
  readEntries .pathItem PathItem.ofJson (← entries "paths" (d.document.get? "paths"))

/-- Reads an operation of a path item. -/
def operation (path : String) (method : HttpMethod) (j : Json) : Except Fault Operation :=
  (Operation.ofJson j).mapError (.malformed (.operation method.name path))

end Description

end ApiGraph
