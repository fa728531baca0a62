import ApiGraph.Json.Record

/-!
Servers of an API description. An extension key marks the server list it stands in as one
microservice.
-/

namespace ApiGraph

structure Server where
  url : String
  description : Option String := none
  /-- The name of the microservice. -/
  microservice : Option String := none
deriving DecidableEq, Repr

namespace Server

def microserviceOfJson (j : Json) : Except Mismatch String := do
  (← Record.ofJson ["name"] j).required "name" Json.toText

def ofJson (j : Json) : Except Mismatch Server := do
  let r ← Record.ofJson ["url", "description", "x-microservice"] j
  return {
    url := ← r.required "url" Json.toText
    description := ← r.orElse "description" none (Json.orNull Json.toText)
    microservice := ← r.orElse "x-microservice" none (Json.orNull microserviceOfJson) }

def toJson (s : Server) : Json :=
  .object <|
    [("url", .string s.url)] ++
    Json.optionalField "description" (s.description.map .string) ++
    Json.optionalField "x-microservice"
      (s.microservice.map fun name => .object [("name", .string name)])

def listToJson (servers : List Server) : Json := .array (servers.map toJson)

/-- The first microservice that a server list names. -/
def microserviceName? (servers : List Server) : Option String := servers.findSome? (·.microservice)

end Server

end ApiGraph
