import ApiGraph.Json.Record
import ApiGraph.OpenApi.Kind

/-!
Schema objects: the part of a schema that the model is built from, with its reading from JSON and
its writing. A schema nests schemas as properties, alternatives, members and array items.

A JSON value is read in one pass from the leaves up. As it shows only above a value what it is
meant as, every value is read as a schema, as a list of schemas and as a table of schemas at
once.
-/

namespace ApiGraph

structure Schema where
  ref : Option String := none
  type : Option String := none
  title : Option String := none
  description : Option String := none
  properties : List (String × Schema) := []
  required : List String := []
  allOf : List Schema := []
  oneOf : List Schema := []
  items : Option Schema := none
  maxLength : Option Nat := none
  enum : List Json := []
  pattern : Option String := none
  xNamespace : Option String := none
  tableName : Option String := none
  plural : Option String := none

namespace Schema

instance : Inhabited Schema := ⟨{}⟩

def empty : Schema := {}

/-! Reading. -/

/-- A value with all that it can be read as. -/
structure Reading where
  raw : Json
  schema : Except Mismatch Schema
  list : Except Mismatch (List Schema)
  table : Except Mismatch (Table Schema)

def fieldNames : List String :=
  ["$ref", "type", "title", "description", "properties", "required", "allOf", "oneOf", "items",
   "maxLength", "enum", "pattern", "x-namespace", "x-table-name", "x-plural"]

private def readText (r : Record Reading) (key : String) : Except Mismatch (Option String) :=
  r.orElse key none fun v => Json.orNull Json.toText v.raw

private def readItems (v : Reading) : Except Mismatch (Option Schema) :=
  match v.raw with
  | .null => .ok none
  | _ => v.schema.map some

def ofRecord (r : Record Reading) : Except Mismatch Schema := do
  return {
    ref := ← readText r "$ref"
    type := ← readText r "type"
    title := ← readText r "title"
    description := ← readText r "description"
    properties := ← r.orElse "properties" [] (·.table)
    required := ← r.orElse "required" [] fun v => Json.toList Json.toText v.raw
    allOf := ← r.orElse "allOf" [] (·.list)
    oneOf := ← r.orElse "oneOf" [] (·.list)
    items := ← r.orElse "items" none readItems
    maxLength := ← r.orElse "maxLength" none fun v =>
      Json.orNull (Json.toNatBelow (Decimal.twoTo 32)) v.raw
    enum := ← r.orElse "enum" [] fun v => Json.toList .ok v.raw
    pattern := ← readText r "pattern"
    xNamespace := ← readText r "x-namespace"
    tableName := ← readText r "x-table-name"
    plural := ← readText r "x-plural" }

/-- What a record is read as depends on what it holds under each name. -/
theorem ofRecord_congr {r r' : Record Reading}
    (same : ∀ key, r'.fields.get? key = r.fields.get? key) : ofRecord r' = ofRecord r := by
  simp only [ofRecord, readText, Record.orElse, same]

/-- The reading of a list, from those of its items. -/
def Reading.ofItems (raw : Json) (items : List Reading) : Reading where
  raw := raw
  schema := (Record.ofItems fieldNames items).bind ofRecord
  list := items.mapM (·.schema)
  table := .error (.expected "an object")

def Reading.tableOf : List (String × Reading) → Except Mismatch (List (String × Schema))
  | [] => .ok []
  | (key, v) :: rest => do return (key, ← v.schema) :: (← tableOf rest)

/-- The reading of an object, from those of its entries. -/
def Reading.ofFields (raw : Json) (fields : List (String × Reading)) : Reading where
  raw := raw
  schema := (Record.ofFields fieldNames fields).bind ofRecord
  list := .error (.expected "an array")
  table := (Reading.tableOf fields).map Table.ofList

def Reading.ofScalar (raw : Json) : Reading where
  raw := raw
  schema := .error (.expected "a schema")
  list := .error (.expected "an array")
  table := .error (.expected "an object")

mutual

def reading : Json → Reading
  | .array items => .ofItems (.array items) (readingItems items)
  | .object fields => .ofFields (.object fields) (readingFields fields)
  | j => .ofScalar j

def readingItems : List Json → List Reading
  | [] => []
  | j :: rest => reading j :: readingItems rest

def readingFields : List (String × Json) → List (String × Reading)
  | [] => []
  | (key, j) :: rest => (key, reading j) :: readingFields rest

end

def ofJson (j : Json) : Except Mismatch Schema := (reading j).schema

/-! Writing: absent and empty fields are left out. -/

mutual

def toJson : Schema → Json
  | ⟨ref, type, title, description, properties, required, allOf, oneOf, items, maxLength, enum,
      pattern, xNamespace, tableName, plural⟩ =>
    .object <|
      Json.optionalField "$ref" (ref.map .string) ++
      Json.optionalField "type" (type.map .string) ++
      Json.optionalField "title" (title.map .string) ++
      Json.optionalField "description" (description.map .string) ++
      Json.nonEmptyField "properties" properties (.object (tableToJson properties)) ++
      Json.nonEmptyField "required" required (Json.ofTexts required) ++
      Json.nonEmptyField "allOf" allOf (.array (listToJson allOf)) ++
      Json.nonEmptyField "oneOf" oneOf (.array (listToJson oneOf)) ++
      Json.optionalField "items" (optionToJson items) ++
      Json.optionalField "maxLength" (maxLength.map Json.nat) ++
      Json.nonEmptyField "enum" enum (.array enum) ++
      Json.optionalField "pattern" (pattern.map .string) ++
      Json.optionalField "x-namespace" (xNamespace.map .string) ++
      Json.optionalField "x-table-name" (tableName.map .string) ++
      Json.optionalField "x-plural" (plural.map .string)

def optionToJson : Option Schema → Option Json
  | none => none
  | some s => some (toJson s)

def listToJson : List Schema → List Json
  | [] => []
  | s :: rest => toJson s :: listToJson rest

def tableToJson : List (String × Schema) → List (String × Json)
  | [] => []
  | (key, s) :: rest => (key, toJson s) :: tableToJson rest

end

/-! What a schema says. -/

/-- The declared primitive type, if the type is one. -/
def primitive (s : Schema) : Option Primitive := s.type.bind Primitive.ofName?

def isArray (s : Schema) : Bool := s.type == some "array"

def isObject (s : Schema) : Bool := s.type == some "object"

/-- Whether the schema stands for another one. -/
def isAlias (s : Schema) : Bool := s.ref.isSome

/-- Whether there is anything to compile. -/
def hasBody (s : Schema) : Bool :=
  !s.properties.isEmpty || !s.allOf.isEmpty || !s.oneOf.isEmpty

/-- An object that is declared in place, with properties of its own. -/
def isAnonymousObject (s : Schema) : Bool :=
  !s.isAlias && (s.isObject || !s.properties.isEmpty)

def isRequired (s : Schema) (property : String) : Bool := property ∈ s.required

/-- The reference of an array's items. -/
def itemsRef (s : Schema) : Option String := s.items.bind (·.ref)

/-- What the schema refers to and how often: a direct reference holds one target, an array of
references many. -/
def refTarget (s : Schema) : Option (String × Multiplicity) :=
  match s.ref with
  | some ref => some (ref, .one)
  | none => if s.isArray then s.itemsRef.map (·, .many) else none

/-- Every reference held by the schema of a property: its own, then those of its alternatives. -/
def references (s : Schema) : List (String × Multiplicity) :=
  s.refTarget.toList ++ s.oneOf.filterMap (·.refTarget)

end Schema

end ApiGraph
