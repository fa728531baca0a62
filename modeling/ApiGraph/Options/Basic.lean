import ApiGraph.Json.Record

/-!
Options of a compilation. Naming templates and base classes are passed on in the graph as they
are.
-/

namespace ApiGraph

/-- Templates for the names of generated classes. -/
structure Naming.Templates where
  model : String := "\x7bresource\x7dModel"
  schema : String := "\x7bresource\x7dSchema"
  controller : String := "\x7bresource\x7d\x7bcontroller_type\x7dController"
deriving DecidableEq, Repr

structure Options where
  /-- For definitions and paths that name no namespace. -/
  defaultNamespace : String := "default"
  /-- The name of the primary key column. -/
  primaryKey : String := "identifier"
  naming : Naming.Templates := {}
  /-- Table names by resource, sorted. -/
  tableNames : Table String := []
  /-- Base classes by kind of artifact, sorted. -/
  baseClasses : Table String := []
deriving DecidableEq, Repr

namespace Naming.Templates

def ofJson (j : Json) : Except Mismatch Templates := do
  let r ← Record.ofJson ["model", "schema", "controller"] j
  let default : Templates := {}
  return {
    model := ← r.orElse "model" default.model Json.toText
    schema := ← r.orElse "schema" default.schema Json.toText
    controller := ← r.orElse "controller" default.controller Json.toText }

def toJson (t : Templates) : Json :=
  .object [("model", .string t.model), ("schema", .string t.schema),
    ("controller", .string t.controller)]

end Naming.Templates

namespace Options

def ofJson (j : Json) : Except Mismatch Options := do
  let r ← Record.ofJson
    ["default_namespace", "primary_key", "naming", "table_names", "base_classes"] j
  let default : Options := {}
  return {
    defaultNamespace := ← r.orElse "default_namespace" default.defaultNamespace Json.toText
    primaryKey := ← r.orElse "primary_key" default.primaryKey Json.toText
    naming := ← r.orElse "naming" default.naming Naming.Templates.ofJson
    tableNames := ← r.orElse "table_names" [] (Json.toSortedTable Json.toText)
    baseClasses := ← r.orElse "base_classes" [] (Json.toSortedTable Json.toText) }

def toJson (o : Options) : Json :=
  .object [("default_namespace", .string o.defaultNamespace), ("primary_key", .string o.primaryKey),
    ("naming", o.naming.toJson), ("table_names", Json.ofTable .string o.tableNames),
    ("base_classes", Json.ofTable .string o.baseClasses)]

def withDefaultNamespace (o : Options) (name : String) : Options :=
  { o with defaultNamespace := name }

def withPrimaryKey (o : Options) (name : String) : Options := { o with primaryKey := name }

def withTableName (o : Options) (resource table : String) : Options :=
  { o with tableNames := Table.insertSorted o.tableNames resource table }

end Options

end ApiGraph
