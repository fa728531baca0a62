import ApiGraph.OpenApi.Schema
import ApiGraph.OpenApi.Server

/-!
Path items and what stands in them: operations with their parameters, request bodies and
responses. A reference in place of a component leaves the component's own fields empty.
-/

namespace ApiGraph

structure Parameter where
  ref : Option String := none
  name : String := ""
  location : String := ""
  required : Bool := false
deriving DecidableEq, Repr

namespace Parameter

def ofJson (j : Json) : Except Mismatch Parameter := do
  let r ← Record.ofJson ["$ref", "name", "in", "required"] j
  return {
    ref := ← r.orElse "$ref" none (Json.orNull Json.toText)
    name := ← r.orElse "name" "" Json.toText
    location := ← r.orElse "in" "" Json.toText
    required := ← r.orElse "required" false Json.toBool }

def toJson (p : Parameter) : Json :=
  .object <|
    Json.optionalField "$ref" (p.ref.map .string) ++
    [("name", .string p.name), ("in", .string p.location), ("required", .bool p.required)]

def isQuery (p : Parameter) : Bool := p.location == "query"

end Parameter

/-- Body schemas by media type. -/
abbrev Content := Table (Option Schema)

namespace Content

/-- The media type that the bodies of endpoints are read from. -/
def jsonMediaType : String := "application/json"

private def mediaOfJson (j : Json) : Except Mismatch (Option Schema) := do
  (← Record.ofJson ["schema"] j).orElse "schema" none (Json.orNull Schema.ofJson)

private def mediaToJson (schema : Option Schema) : Json :=
  .object (Json.optionalField "schema" (schema.map Schema.toJson))

def ofJson (j : Json) : Except Mismatch Content := Json.toTable mediaOfJson j

def toJson (c : Content) : Json := Json.ofTable mediaToJson c

/-- The schema of the JSON body, if one is declared. -/
def jsonSchema? (c : Content) : Option Schema := (c.get? jsonMediaType).join

end Content

structure RequestBody where
  ref : Option String := none
  content : Content := []

namespace RequestBody

def ofJson (j : Json) : Except Mismatch RequestBody := do
  let r ← Record.ofJson ["$ref", "content"] j
  return {
    ref := ← r.orElse "$ref" none (Json.orNull Json.toText)
    content := ← r.orElse "content" [] Content.ofJson }

def toJson (b : RequestBody) : Json :=
  .object (Json.optionalField "$ref" (b.ref.map .string) ++ [("content", b.content.toJson)])

end RequestBody

structure Response where
  ref : Option String := none
  description : Option String := none
  content : Content := []

namespace Response

def ofJson (j : Json) : Except Mismatch Response := do
  let r ← Record.ofJson ["$ref", "description", "content"] j
  return {
    ref := ← r.orElse "$ref" none (Json.orNull Json.toText)
    description := ← r.orElse "description" none (Json.orNull Json.toText)
    content := ← r.orElse "content" [] Content.ofJson }

def toJson (r : Response) : Json :=
  .object <|
    Json.optionalField "$ref" (r.ref.map .string) ++
    Json.optionalField "description" (r.description.map .string) ++
    [("content", r.content.toJson)]

end Response

structure Operation where
  operationId : Option String := none
  parameters : List Parameter := []
  requestBody : Option RequestBody := none
  /-- Responses by status code. -/
  responses : Table Response := []

namespace Operation

def ofJson (j : Json) : Except Mismatch Operation := do
  let r ← Record.ofJson ["operationId", "parameters", "requestBody", "responses"] j
  return {
    operationId := ← r.orElse "operationId" none (Json.orNull Json.toText)
    parameters := ← r.orElse "parameters" [] (Json.toList Parameter.ofJson)
    requestBody := ← r.orElse "requestBody" none (Json.orNull RequestBody.ofJson)
    responses := ← r.orElse "responses" [] (Json.toTable Response.ofJson) }

def toJson (o : Operation) : Json :=
  .object <|
    Json.optionalField "operationId" (o.operationId.map .string) ++
    Json.nonEmptyField "parameters" o.parameters (.array (o.parameters.map Parameter.toJson)) ++
    Json.optionalField "requestBody" (o.requestBody.map RequestBody.toJson) ++
    [("responses", Json.ofTable Response.toJson o.responses)]

end Operation

structure PathItem where
  xNamespace : Option String := none
  parameters : List Parameter := []
  servers : List Server := []
  /-- Everything else, the operations included. -/
  entries : Table Json := []

namespace PathItem

def fieldNames : List String := ["x-namespace", "parameters", "servers"]

/-- A path item is an object; its entries without a field of their own are kept as they are. -/
def ofJson : Json → Except Mismatch PathItem
  | .object fields => do
    let r ← Record.ofFields fieldNames fields
    return {
      xNamespace := ← r.orElse "x-namespace" none (Json.orNull Json.toText)
      parameters := ← r.orElse "parameters" [] (Json.toList Parameter.ofJson)
      servers := ← r.orElse "servers" [] (Json.toList Server.ofJson)
      entries := fields.filter fun entry => entry.1 ∉ fieldNames }
  | _ => .error (.expected "an object")

def toJson (p : PathItem) : Json :=
  .object <|
    Json.optionalField "x-namespace" (p.xNamespace.map .string) ++
    Json.nonEmptyField "parameters" p.parameters (.array (p.parameters.map Parameter.toJson)) ++
    Json.nonEmptyField "servers" p.servers (Server.listToJson p.servers) ++
    p.entries

/-- The declared operations in document order; entries that are not named for a method are
skipped. -/
def operations (p : PathItem) : List (HttpMethod × Json) :=
  p.entries.filterMap fun (key, j) => (HttpMethod.ofName? key).map (·, j)

end PathItem

end ApiGraph
