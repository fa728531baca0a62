import ApiGraph.Model.Column

/-!
Join tables: the tables between the two sides of a many-to-many relationship, within one
namespace.
-/

namespace ApiGraph

structure JoinTable where
  name : String
  nameSpace : String
  /-- The names of the two entities, sorted. -/
  entities : String × String
  columns : Table Column := []
deriving DecidableEq, Repr

/-- Two texts in order. -/
def sortedPair (a b : String) : String × String := if b < a then (b, a) else (a, b)

namespace JoinTable

/-- The name of the table between two entities with the given labels. -/
def nameFor (a b : String) : String :=
  let (first, second) := sortedPair a b
  first ++ second

/-- Whether an entity is one of the two sides. -/
def joins (t : JoinTable) (entity : String) : Bool :=
  t.entities.1 == entity || t.entities.2 == entity

def entitiesOfJson (j : Json) : Except Mismatch (String × String) := do
  match ← Json.toList Json.toText j with
  | [a, b] => .ok (a, b)
  | _ => .error (.expected "two names")

def ofJson (j : Json) : Except Mismatch JoinTable := do
  let r ← Record.ofJson ["name", "namespace", "entities", "columns"] j
  return {
    name := ← r.required "name" Json.toText
    nameSpace := ← r.required "namespace" Json.toText
    entities := ← r.required "entities" entitiesOfJson
    columns := ← r.required "columns" (Json.toTable Column.ofJson) }

def toJson (t : JoinTable) : Json :=
  .object [("name", .string t.name), ("namespace", .string t.nameSpace),
    ("entities", Json.ofTexts [t.entities.1, t.entities.2]),
    ("columns", Json.ofTable Column.toJson t.columns)]

end JoinTable

end ApiGraph
