import ApiGraph.Merge.Basic

/-!
Combining several documents into one. A master gives the top-level entries; its paths and its
components are rebuilt from the merged sources, of which a later one overwrites the entries of an
earlier one. At the end the properties that are for models only and all keys that only serve
authors are taken out.
-/

namespace ApiGraph.Merge

/-- The sections of the components, in the order in which they are written. -/
def componentSections : List String :=
  ["schemas", "responses", "parameters", "examples", "requestBodies", "securitySchemes",
   "headers"]

/-- Keys that only serve authors. -/
def authoringKeys : List String :=
  ["x-controller", "x-tags", "x-db", "x-schema", "x-public", "x-embeddable", "x-model"]

mutual

/-- Takes out the authoring keys at every depth. -/
def stripAuthoringKeys : Json → Json
  | .array items => .array (stripItems items)
  | .object fields => .object (stripFields fields)
  | j => j

def stripItems : List Json → List Json
  | [] => []
  | j :: rest => stripAuthoringKeys j :: stripItems rest

def stripFields : List (String × Json) → List (String × Json)
  | [] => []
  | (key, j) :: rest =>
    if key ∈ authoringKeys then stripFields rest
    else (key, stripAuthoringKeys j) :: stripFields rest

end

/-- Whether a property is marked as being for models only. -/
def isModelOnly (property : Json) : Bool :=
  match (property.get? "x-db").bind (·.get? "model_only") with
  | some (.bool b) => b
  | _ => false

/-- A schema without those of its properties that are for models only. -/
def withoutModelOnly (schema : Json) : Json :=
  match schema with
  | .object fields =>
    match (Table.get? fields "properties").bind Json.fields? with
    | some properties =>
      .object (Table.insert fields "properties"
        (.object (properties.filter fun entry => !isModelOnly entry.2)))
    | none => schema
  | _ => schema

/-- What was collected from the sources. -/
structure Collected where
  paths : Table Json := []
  /-- One table for each component section, in their order. -/
  sections : List (Table Json) := componentSections.map fun _ => []

/-- Takes up the entries of an object, over those that are there. -/
def absorb (into : Table Json) (found : Option Json) : Table Json :=
  Table.insertAll into ((found.bind Json.fields?).getD [])

def Collected.absorb (c : Collected) (document : Json) : Collected where
  paths := Merge.absorb c.paths (document.get? "paths")
  sections := (componentSections.zip c.sections).map fun (name, table) =>
    Merge.absorb table ((document.get? "components").bind (·.get? name))

/-- Merges the sources one after the other, with the files of each kept for the next. -/
def collect : Collected → List Path → ResolveM Collected
  | c, [] => return c
  | c, source :: rest => do
    let merged ← file source
    collect (c.absorb merged.document) rest

/-- The master's entries with the paths and components that were collected. -/
def assemble (master : Table Json) (c : Collected) : Table Json :=
  let components := componentSections.zip (c.sections.map Json.object)
  Table.insert (Table.insert master "paths" (.object c.paths)) "components" (.object components)

/-- Combines the sources into the skeleton of the master. -/
def sources (files : FileTree) (master : Path) (paths : List Path) : Except Fault Json := do
  let some top := (← files.load master).fields? | .error (.cannotMerge (.masterNotObject master))
  let (collected, _) := (collect {} paths).run.run (Resolver.fresh files)
  let combined := Json.object (assemble top (← collected))
  let cleaned ← modifyDefinitions combined fun schemas =>
    schemas.map fun (name, schema) => (name, withoutModelOnly schema)
  return stripAuthoringKeys cleaned

end ApiGraph.Merge
