import ApiGraph.Json.Record
import ApiGraph.OpenApi.Kind

/-!
Endpoints: what each path of an API offers, by method.
-/

namespace ApiGraph

/-- The response of a successful call. -/
structure EndpointResponse where
  successCode : Nat
  /-- The entity in the body. -/
  entity : Option String := none
deriving DecidableEq, Repr

structure EndpointMethod where
  supported : Bool := false
  /-- The entity in the body of the request. -/
  request : Option String := none
  response : Option EndpointResponse := none
  queryParams : List String := []
deriving DecidableEq, Repr

structure Endpoint where
  path : String
  nameSpace : String
  microservice : Option String := none
  /-- Methods in alphabetical order. -/
  methods : List (HttpMethod × EndpointMethod)
deriving DecidableEq, Repr

namespace EndpointResponse

def ofJson (j : Json) : Except Mismatch EndpointResponse := do
  let r ← Record.ofJson ["success_code", "entity"] j
  return {
    successCode := ← r.required "success_code" (Json.toNatBelow (Decimal.twoTo 16))
    entity := ← r.orElse "entity" none (Json.orNull Json.toText) }

def toJson (r : EndpointResponse) : Json :=
  .object <|
    [("success_code", Json.nat r.successCode)] ++
    Json.optionalField "entity" (r.entity.map .string)

end EndpointResponse

namespace EndpointMethod

def ofJson (j : Json) : Except Mismatch EndpointMethod := do
  let r ← Record.ofJson ["supported", "request", "response", "query_params"] j
  return {
    supported := ← r.required "supported" Json.toBool
    request := ← r.orElse "request" none (Json.orNull Json.toText)
    response := ← r.orElse "response" none (Json.orNull EndpointResponse.ofJson)
    queryParams := ← r.orElse "query_params" [] (Json.toList Json.toText) }

def toJson (m : EndpointMethod) : Json :=
  .object <|
    [("supported", .bool m.supported)] ++
    Json.optionalField "request" (m.request.map .string) ++
    Json.optionalField "response" (m.response.map EndpointResponse.toJson) ++
    Json.nonEmptyField "query_params" m.queryParams (Json.ofTexts m.queryParams)

/-- One entry for each method that occurs, in alphabetical order; of several entries for one
method the last counts. -/
def arrange (entries : List (HttpMethod × EndpointMethod)) : List (HttpMethod × EndpointMethod) :=
  HttpMethod.alphabetical.filterMap fun m => (entries.reverse.lookup m).map (m, ·)

def tableOfEntries : List (String × Json) → Except Mismatch (List (HttpMethod × EndpointMethod))
  | [] => .ok []
  | (key, j) :: rest => do
    let some m := HttpMethod.ofName? key | .error (.unknown key)
    return (m, ← ofJson j) :: (← tableOfEntries rest)

def tableOfJson : Json → Except Mismatch (List (HttpMethod × EndpointMethod))
  | .object fields => (tableOfEntries fields).map arrange
  | _ => .error (.expected "an object")

end EndpointMethod

namespace Endpoint

/-- An endpoint on which no method is supported. -/
def bare (path nameSpace : String) : Endpoint where
  path
  nameSpace
  methods := EndpointMethod.arrange (HttpMethod.supported.map (·, {}))

def supported (e : Endpoint) : List (HttpMethod × EndpointMethod) :=
  e.methods.filter (·.2.supported)

def ofJson (j : Json) : Except Mismatch Endpoint := do
  let r ← Record.ofJson ["path", "namespace", "microservice", "methods"] j
  return {
    path := ← r.required "path" Json.toText
    nameSpace := ← r.required "namespace" Json.toText
    microservice := ← r.orElse "microservice" none (Json.orNull Json.toText)
    methods := ← r.required "methods" EndpointMethod.tableOfJson }

def toJson (e : Endpoint) : Json :=
  .object <|
    [("path", .string e.path), ("namespace", .string e.nameSpace)] ++
    Json.optionalField "microservice" (e.microservice.map .string) ++
    [("methods", .object (e.methods.map fun (m, method) => (m.name, method.toJson)))]

end Endpoint

end ApiGraph
