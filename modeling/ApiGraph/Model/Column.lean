import ApiGraph.Json.Printer
import ApiGraph.OpenApi.Schema

/-!
Columns of tables, from the schemas of primitive properties or as keys of other tables.
-/

namespace ApiGraph

inductive ColumnType where
  | boolean
  | float
  | integer
  | string
deriving DecidableEq, Repr

namespace ColumnType

def named : List (String × ColumnType) :=
  [("Boolean", .boolean), ("Float", .float), ("Integer", .integer), ("String", .string)]

def name : ColumnType → String
  | .boolean => "Boolean"
  | .float => "Float"
  | .integer => "Integer"
  | .string => "String"

def ofPrimitive : Primitive → ColumnType
  | .boolean => .boolean
  | .integer => .integer
  | .number => .float
  | .string => .string

end ColumnType

structure Column where
  type : ColumnType
  nullable : Bool
  maxLength : Option Nat := none
  /-- The namespace, table and primary key of the entity that is referenced. -/
  foreignKey : Option String := none
  description : Option String := none
  /-- The allowed values as text. -/
  enumValues : Option (List String) := none
  /-- A regular expression for the values. -/
  pattern : Option String := none
deriving DecidableEq, Repr

namespace Column

/-- The length of a key, which is a unique identifier as text. -/
def keyLength : Nat := 36

/-- A value of an enumeration as text: a string stands for itself, any other value is written as
JSON. -/
def enumText : Json → String
  | .string s => s
  | j => j.compact

/-- The column for a property of primitive type. -/
def ofSchema (primitive : Primitive) (schema : Schema) (nullable : Bool) : Column where
  type := .ofPrimitive primitive
  nullable
  maxLength := schema.maxLength
  description := schema.description
  enumValues := if schema.enum.isEmpty then none else some (schema.enum.map enumText)
  pattern := schema.pattern

/-- A nullable key that points at the given target. -/
def key (target : String) : Column where
  type := .string
  nullable := true
  maxLength := some keyLength
  foreignKey := some target

def ofJson (j : Json) : Except Mismatch Column := do
  let r ← Record.ofJson
    ["type", "nullable", "max_length", "foreign_key", "description", "enum_values", "pattern"] j
  return {
    type := ← r.required "type" (Json.toChoice ColumnType.named)
    nullable := ← r.required "nullable" Json.toBool
    maxLength := ← r.orElse "max_length" none (Json.orNull (Json.toNatBelow (Decimal.twoTo 32)))
    foreignKey := ← r.orElse "foreign_key" none (Json.orNull Json.toText)
    description := ← r.orElse "description" none (Json.orNull Json.toText)
    enumValues := ← r.orElse "enum_values" none (Json.orNull (Json.toList Json.toText))
    pattern := ← r.orElse "pattern" none (Json.orNull Json.toText) }

def toJson (c : Column) : Json :=
  .object <|
    [("type", .string c.type.name), ("nullable", .bool c.nullable)] ++
    Json.optionalField "max_length" (c.maxLength.map Json.nat) ++
    Json.optionalField "foreign_key" (c.foreignKey.map .string) ++
    Json.optionalField "description" (c.description.map .string) ++
    Json.optionalField "enum_values" (c.enumValues.map Json.ofTexts) ++
    Json.optionalField "pattern" (c.pattern.map .string)

end Column

/-- The columns that are foreign keys, with what they point at. -/
def foreignKeyColumns (columns : Table Column) : List (String × String) :=
  columns.filterMap fun (name, column) => column.foreignKey.map (name, ·)

end ApiGraph
