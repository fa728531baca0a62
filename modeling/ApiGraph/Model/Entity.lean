import ApiGraph.Model.Column
import ApiGraph.Model.Relationship
import ApiGraph.Naming.Plural
import ApiGraph.Options.Basic

/-!
Entities: named definitions compiled to tables. What identifies an entity is fixed when it is
made; after that columns and relationships are added, and a relationship takes the place of a
column of its name.
-/

namespace ApiGraph

structure Entity where
  /-- The name of the definition. -/
  name : String
  /-- The title of the definition, else its name. -/
  resource : String
  nameSpace : String
  tableName : String
  primaryKey : String
  description : Option String := none
  columns : Table Column := []
  relationships : Table Relationship := []
deriving DecidableEq, Repr

namespace Entity

/-- The table of a definition: as the schema says, as its plural says, as the options say for the
resource, or the plural of the resource. -/
def tableNameFor (schema : Schema) (resource : String) (options : Options) : String :=
  (schema.tableName <|> schema.plural.map Naming.flat <|>
    Table.get? options.tableNames resource).getD (Naming.pluralize resource)

/-- The entity of a definition, without columns and relationships. -/
def ofDefinition (name : String) (schema : Schema) (options : Options) : Entity :=
  let resource := schema.title.getD name
  { name
    resource
    nameSpace := schema.xNamespace.getD options.defaultNamespace
    tableName := tableNameFor schema resource options
    primaryKey := options.primaryKey
    description := schema.description }

/-- The name of the entity within generated names. -/
def label (e : Entity) : String := Naming.flat e.name

/-- The name of a key column that points at an entity with the given label. -/
def keyColumnFor (label : String) : String := label ++ "_id"

def keyColumn (e : Entity) : String := keyColumnFor e.label

/-- What a key column that points at the entity references. -/
def foreignKeyTarget (e : Entity) : String :=
  e.nameSpace ++ "." ++ e.tableName ++ "." ++ e.primaryKey

def addColumn (e : Entity) (name : String) (column : Column) : Entity :=
  { e with columns := Table.insert e.columns name column }

/-- Adds a relationship; a column of its name is dropped. -/
def addRelationship (e : Entity) (name : String) (relationship : Relationship) : Entity :=
  { e with
    columns := Table.erase e.columns name
    relationships := Table.insert e.relationships name relationship }

def foreignKeys (e : Entity) : List (String × String) := foreignKeyColumns e.columns

def ofJson (j : Json) : Except Mismatch Entity := do
  let r ← Record.ofJson
    ["name", "resource", "namespace", "table_name", "primary_key", "description", "columns",
     "relationships"] j
  return {
    name := ← r.required "name" Json.toText
    resource := ← r.required "resource" Json.toText
    nameSpace := ← r.required "namespace" Json.toText
    tableName := ← r.required "table_name" Json.toText
    primaryKey := ← r.required "primary_key" Json.toText
    description := ← r.orElse "description" none (Json.orNull Json.toText)
    columns := ← r.required "columns" (Json.toTable Column.ofJson)
    relationships := ← r.required "relationships" (Json.toTable Relationship.ofJson) }

def toJson (e : Entity) : Json :=
  .object <|
    [("name", .string e.name), ("resource", .string e.resource),
     ("namespace", .string e.nameSpace), ("table_name", .string e.tableName),
     ("primary_key", .string e.primaryKey)] ++
    Json.optionalField "description" (e.description.map .string) ++
    [("columns", Json.ofTable Column.toJson e.columns),
     ("relationships", Json.ofTable Relationship.toJson e.relationships)]

end Entity

end ApiGraph
