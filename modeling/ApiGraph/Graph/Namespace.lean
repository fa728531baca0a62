import ApiGraph.Endpoint.Basic
import ApiGraph.Fault
import ApiGraph.Model.Entity
import ApiGraph.Model.JoinTable
import ApiGraph.Text.Blank

/-!
Namespaces: what shares a namespace, by name. A namespace that is blank is refused.
-/

namespace ApiGraph

/-- The names of everything in one namespace. A relationship is named by its entity, a dot and its
own name. -/
structure Namespace where
  entities : List String := []
  relationships : List String := []
  joinTables : List String := []
  endpoints : List String := []
deriving DecidableEq, Repr

namespace Namespace

def isEmpty (n : Namespace) : Bool :=
  n.entities.isEmpty && n.relationships.isEmpty && n.joinTables.isEmpty && n.endpoints.isEmpty

/-- Changes the namespace with the given name, which is empty before its first change. -/
def change (spaces : Table Namespace) (name owner : String) (f : Namespace → Namespace) :
    Except Fault (Table Namespace) :=
  if Text.allBlank name then .error (.missingNamespace owner)
  else .ok (spaces.insertSorted name (f ((spaces.get? name).getD {})))

def addEntity (spaces : Table Namespace) (entry : String × Entity) :
    Except Fault (Table Namespace) :=
  let (name, e) := entry
  change spaces e.nameSpace name fun n =>
    { n with
      entities := n.entities ++ [name]
      relationships := n.relationships ++ e.relationships.keys.map (name ++ "." ++ ·) }

def addJoinTable (spaces : Table Namespace) (entry : String × JoinTable) :
    Except Fault (Table Namespace) :=
  let (name, t) := entry
  change spaces t.nameSpace name fun n => { n with joinTables := n.joinTables ++ [name] }

def addEndpoint (spaces : Table Namespace) (entry : String × Endpoint) :
    Except Fault (Table Namespace) :=
  let (path, e) := entry
  change spaces e.nameSpace path fun n => { n with endpoints := n.endpoints ++ [path] }

/-- All namespaces, sorted by name. -/
def assemble (entities : Table Entity) (joinTables : Table JoinTable)
    (endpoints : Table Endpoint) : Except Fault (Table Namespace) := do
  let spaces ← entities.foldlM addEntity []
  let spaces ← joinTables.foldlM addJoinTable spaces
  endpoints.foldlM addEndpoint spaces

def ofJson (j : Json) : Except Mismatch Namespace := do
  let r ← Record.ofJson ["entities", "relationships", "join_tables", "endpoints"] j
  return {
    entities := ← r.required "entities" (Json.toList Json.toText)
    relationships := ← r.required "relationships" (Json.toList Json.toText)
    joinTables := ← r.required "join_tables" (Json.toList Json.toText)
    endpoints := ← r.required "endpoints" (Json.toList Json.toText) }

def toJson (n : Namespace) : Json :=
  .object [("entities", Json.ofTexts n.entities), ("relationships", Json.ofTexts n.relationships),
    ("join_tables", Json.ofTexts n.joinTables), ("endpoints", Json.ofTexts n.endpoints)]

end Namespace

end ApiGraph
