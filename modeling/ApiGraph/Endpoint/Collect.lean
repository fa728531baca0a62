import ApiGraph.Endpoint.Basic
import ApiGraph.Model.Entity
import ApiGraph.OpenApi.Description

/-!
The endpoints of a description, one for each path, and the microservices that its server lists
name.
-/

namespace ApiGraph.Endpoint

/-- Success codes with a body; the first one that is declared counts. -/
def successCodes : List Nat := [200, 201, 202]

/-- The success code of a response without a body. -/
def noContent : Nat := 204

/-- Reads the component that a local reference points at. One step is made, no more. -/
def component (document : Json) (owner : String) (read : Json → Except Mismatch α)
    (ref : String) : Except Fault α := do
  match ← Reference.ofText ref with
  | .external .. => .error (.unknownDefinition owner ref)
  | .inFile fragment =>
    match fragment.lookup document with
    | none => .error (.unknownDefinition owner ref)
    | some node =>
      (read node).mapError fun mismatch =>
        .unsupportedShape owner (.malformedComponent ref mismatch)

/-- A component itself, or what it refers to. -/
def componentOr (document : Json) (owner : String) (read : Json → Except Mismatch α)
    (ref : Option String) (inline : α) : Except Fault α :=
  match ref with
  | some ref => component document owner read ref
  | none => .ok inline

/-- The entity that a body stands for: through its reference or that of its items, which must name
an entity, else by its title. -/
def entityName (entities : Table Entity) (owner : String) (schema : Schema) :
    Except Fault (Option String) :=
  match schema.ref <|> schema.itemsRef with
  | none => .ok schema.title
  | some ref =>
    match definitionName? ref with
    | some name =>
      if entities.contains name then .ok (some name) else .error (.unknownDefinition owner ref)
    | none => .error (.unknownDefinition owner ref)

/-- The entity in the JSON body among the contents. -/
def bodyEntity (entities : Table Entity) (owner : String) (content : Content) :
    Except Fault (Option String) :=
  match content.jsonSchema? with
  | some schema => entityName entities owner schema
  | none => .ok none

def requestEntity (document : Json) (entities : Table Entity) (owner : String) (o : Operation) :
    Except Fault (Option String) :=
  match o.requestBody with
  | some body => do
    let body ← componentOr document owner RequestBody.ofJson body.ref body
    bodyEntity entities owner body.content
  | none => .ok none

/-- The first declared response with one of the success codes. -/
def success? (responses : Table Response) : List Nat → Option (Nat × Response)
  | [] => none
  | code :: rest =>
    match responses.get? (toString code) with
    | some response => some (code, response)
    | none => success? responses rest

def successResponse (document : Json) (entities : Table Entity) (owner : String) (o : Operation) :
    Except Fault EndpointResponse :=
  match success? o.responses successCodes with
  | some (code, response) => do
    let response ← componentOr document owner Response.ofJson response.ref response
    return ⟨code, ← bodyEntity entities owner response.content⟩
  | none =>
    if o.responses.contains (toString noContent) then .ok ⟨noContent, none⟩
    else .error (.unsupportedShape owner .noSuccessResponse)

/-- The names of the query parameters, without repeats. -/
def queryParams (document : Json) (owner : String) :
    List String → List Parameter → Except Fault (List String)
  | names, [] => .ok names
  | names, p :: rest => do
    let p ← componentOr document owner Parameter.ofJson p.ref p
    queryParams document owner
      (if p.isQuery && p.name ∉ names then names ++ [p.name] else names) rest

/-- A supported method. Parameters of the path come before those of the operation. -/
def ofOperation (document : Json) (entities : Table Entity) (owner : String) (item : PathItem)
    (o : Operation) : Except Fault EndpointMethod := do
  return {
    supported := true
    request := ← requestEntity document entities owner o
    response := some (← successResponse document entities owner o)
    queryParams := ← queryParams document owner [] (item.parameters ++ o.parameters) }

/-- The supported methods among the declared operations, in document order. -/
def declaredMethods (document : Json) (entities : Table Entity) (path : String) (item : PathItem) :
    List (HttpMethod × Json) → Except Fault (List (HttpMethod × EndpointMethod))
  | [] => .ok []
  | (m, j) :: rest => do
    if m.isSupported then
      let operation ← Description.operation path m j
      let compiled ← ofOperation document entities (m.name ++ " " ++ path) item operation
      return (m, compiled) :: (← declaredMethods document entities path item rest)
    else declaredMethods document entities path item rest

/-- The endpoint of a path. Its own servers name the microservice, else those of the whole API. -/
def ofPath (document : Json) (servers : List Server) (entities : Table Entity)
    (options : Options) (path : String) (item : PathItem) : Except Fault Endpoint := do
  let bare := bare path (item.xNamespace.getD options.defaultNamespace)
  let compiled ← declaredMethods document entities path item item.operations
  return { bare with
    microservice := Server.microserviceName? item.servers <|> Server.microserviceName? servers
    methods := EndpointMethod.arrange (bare.methods ++ compiled) }

def ofPaths (document : Json) (servers : List Server) (entities : Table Entity)
    (options : Options) : List (String × PathItem) → Except Fault (Table Endpoint)
  | [] => .ok []
  | (path, item) :: rest => do
    let endpoint ← ofPath document servers entities options path item
    return (path, endpoint) :: (← ofPaths document servers entities options rest)

/-- One endpoint for each path, in document order. -/
def collect (d : Description) (servers : List Server) (entities : Table Entity)
    (options : Options) : Except Fault (Table Endpoint) := do
  ofPaths d.document servers entities options (← d.paths)

/-- Adds the microservices of a server list that are not there yet. -/
def addMicroservices (names : List String) (servers : List Server) : List String :=
  (servers.filterMap (·.microservice)).foldl
    (fun names name => if name ∈ names then names else names ++ [name]) names

/-- Every microservice that a server list names, in the order of first mention; the servers of the
whole API come first. -/
def microservices (d : Description) (servers : List Server) : Except Fault (List String) := do
  let paths ← d.paths
  return (servers :: paths.map (·.2.servers)).foldl addMicroservices []

end ApiGraph.Endpoint
