import ApiGraph.Graph.Namespace
import ApiGraph.Json.Reader
import ApiGraph.OpenApi.Server

/-!
The model graph: all entities, relationships, join tables and endpoints of a description, and its
JSON form, which reads back as the same graph.
-/

namespace ApiGraph

/-- A relationship with its source and its name. -/
structure RelationshipEntry where
  source : String
  name : String
  relationship : Relationship
deriving DecidableEq, Repr

namespace RelationshipEntry

/-- The fields of the relationship stand beside the source and the name. -/
def ofJson : Json → Except Mismatch RelationshipEntry
  | .object fields => do
    let r ← Record.ofFields ("source" :: "name" :: Relationship.fieldNames) fields
    return {
      source := ← r.required "source" Json.toText
      name := ← r.required "name" Json.toText
      relationship := ← Relationship.ofRecord r }
  | _ => .error (.expected "an object")

def toJson (e : RelationshipEntry) : Json :=
  .object ([("source", .string e.source), ("name", .string e.name)] ++ e.relationship.toFields)

end RelationshipEntry

/-- A key column, with the entity or join table that carries it and what it references. -/
structure ForeignKey where
  owner : String
  column : String
  target : String
deriving DecidableEq, Repr

structure Graph where
  entities : Table Entity
  /-- The relationships of all entities, in their order. -/
  relationships : List RelationshipEntry
  joinTables : Table JoinTable
  endpoints : Table Endpoint
  /-- Sorted by name. -/
  namespaces : Table Namespace
  /-- The servers of the whole API. -/
  servers : List Server := []
  microservices : List String := []
  options : Options
deriving DecidableEq, Repr

namespace Graph

def relationshipsOf (entities : Table Entity) : List RelationshipEntry :=
  entities.values.flatMap fun e => e.relationships.map fun (name, r) => ⟨e.name, name, r⟩

/-- Every key column, first those of the entities and then those of the join tables. -/
def foreignKeys (g : Graph) : List ForeignKey :=
  (g.entities.flatMap fun (owner, e) =>
    e.foreignKeys.map fun (column, target) => ⟨owner, column, target⟩) ++
  (g.joinTables.flatMap fun (owner, t) =>
    (foreignKeyColumns t.columns).map fun (column, target) => ⟨owner, column, target⟩)

def ofJson (j : Json) : Except Mismatch Graph := do
  let r ← Record.ofJson
    ["entities", "relationships", "join_tables", "endpoints", "namespaces", "servers",
     "microservices", "options"] j
  return {
    entities := ← r.required "entities" (Json.toTable Entity.ofJson)
    relationships := ← r.required "relationships" (Json.toList RelationshipEntry.ofJson)
    joinTables := ← r.required "join_tables" (Json.toTable JoinTable.ofJson)
    endpoints := ← r.required "endpoints" (Json.toTable Endpoint.ofJson)
    namespaces := ← r.required "namespaces" (Json.toSortedTable Namespace.ofJson)
    servers := ← r.orElse "servers" [] (Json.toList Server.ofJson)
    microservices := ← r.orElse "microservices" [] (Json.toList Json.toText)
    options := ← r.required "options" Options.ofJson }

def toJson (g : Graph) : Json :=
  .object [
    ("entities", Json.ofTable Entity.toJson g.entities),
    ("relationships", .array (g.relationships.map RelationshipEntry.toJson)),
    ("join_tables", Json.ofTable JoinTable.toJson g.joinTables),
    ("endpoints", Json.ofTable Endpoint.toJson g.endpoints),
    ("namespaces", Json.ofTable Namespace.toJson g.namespaces),
    ("servers", Server.listToJson g.servers),
    ("microservices", Json.ofTexts g.microservices),
    ("options", g.options.toJson)]

/-- The graph as indented JSON. -/
def text (g : Graph) : String := g.toJson.indented

def ofText (text : String) : Except Mismatch Graph :=
  match Json.entriesOfText? text with
  | some j => ofJson j
  | none => .error (.expected "JSON text")

end Graph

end ApiGraph
