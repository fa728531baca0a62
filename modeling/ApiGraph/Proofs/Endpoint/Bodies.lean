import ApiGraph.Endpoint.Collect
import ApiGraph.Proofs.Effect.Meets
import ApiGraph.Proofs.Endpoint.Arranged
import ApiGraph.Proofs.Table.Lookup

/-! The entities in the bodies of endpoints. A body stands for an entity through its reference or
that of its items, which must name an entity of the graph, and else for its title (`BodyEntity`).
Every method of an endpoint is either not supported or comes from an operation of its path, and
then its request and its response hold what the bodies of the operation stand for
(`offers_of_collect`). -/

namespace ApiGraph.Endpoint

variable {document : Json} {entities : Table Entity} {owner : String}

/-- What the body with the given contents stands for. -/
inductive BodyEntity (entities : Table Entity) (content : Content) : Option String → Prop
  | absent (noBody : content.jsonSchema? = none) : BodyEntity entities content none
  | titled {schema : Schema} (body : content.jsonSchema? = some schema)
    (inPlace : (schema.ref <|> schema.itemsRef) = none) :
    BodyEntity entities content schema.title
  | referred {schema : Schema} {ref name : String} (body : content.jsonSchema? = some schema)
    (refers : (schema.ref <|> schema.itemsRef) = some ref)
    (named : definitionName? ref = some name) (isEntity : name ∈ entities.keys) :
    BodyEntity entities content (some name)

theorem bodyEntity_eq_ok {content : Content} {found : Option String}
    (h : bodyEntity entities owner content = .ok found) : BodyEntity entities content found := by
  rw [bodyEntity] at h
  split at h
  · rename_i schema body
    rw [entityName] at h
    split at h
    · rename_i inPlace
      cases h
      exact .titled body inPlace
    · rename_i ref refers
      split at h
      · rename_i name named
        split at h
        · rename_i there
          cases h
          exact .referred body refers named (Table.contains_iff.mp there)
        · cases h
      · cases h
  · rename_i noBody
    cases h
    exact .absent noBody

/-- The entity of a request, through the body of the operation or the component that it refers
to. -/
inductive RequestEntity (document : Json) (entities : Table Entity) (owner : String)
    (o : Operation) : Option String → Prop
  | absent (noBody : o.requestBody = none) : RequestEntity document entities owner o none
  | body {body found : RequestBody} {entity : Option String} (there : o.requestBody = some body)
    (leads : componentOr document owner RequestBody.ofJson body.ref body = .ok found)
    (stands : BodyEntity entities found.content entity) :
    RequestEntity document entities owner o entity

/-- The response of an operation: the first one with a success code and a body, or none. -/
inductive ResponseEntity (document : Json) (entities : Table Entity) (owner : String)
    (o : Operation) : EndpointResponse → Prop
  | noContent (noBody : success? o.responses successCodes = none)
    (declared : o.responses.contains (toString Endpoint.noContent) = true) :
    ResponseEntity document entities owner o ⟨Endpoint.noContent, none⟩
  | success {code : Nat} {response found : Response} {entity : Option String}
    (first : success? o.responses successCodes = some (code, response))
    (leads : componentOr document owner Response.ofJson response.ref response = .ok found)
    (stands : BodyEntity entities found.content entity) :
    ResponseEntity document entities owner o ⟨code, entity⟩

/-- A supported method with what the bodies of its operation stand for. -/
structure Offers (document : Json) (entities : Table Entity) (owner : String) (o : Operation)
    (m : EndpointMethod) : Prop where
  supported : m.supported = true
  request : RequestEntity document entities owner o m.request
  response : ∃ r, m.response = some r ∧ ResponseEntity document entities owner o r

theorem requestEntity_eq_ok {o : Operation} {found : Option String}
    (h : requestEntity document entities owner o = .ok found) :
    RequestEntity document entities owner o found := by
  rw [requestEntity] at h
  split at h
  · rename_i body there
    obtain ⟨reached, leads, h⟩ := bind_eq_ok.mp h
    exact .body there leads (bodyEntity_eq_ok h)
  · rename_i noBody
    cases h
    exact .absent noBody

theorem successResponse_eq_ok {o : Operation} {r : EndpointResponse}
    (h : successResponse document entities owner o = .ok r) :
    ResponseEntity document entities owner o r := by
  rw [successResponse] at h
  split at h
  · rename_i code response first
    obtain ⟨reached, leads, h⟩ := bind_eq_ok.mp h
    obtain ⟨entity, stands, h⟩ := bind_eq_ok.mp h
    cases h
    exact .success first leads (bodyEntity_eq_ok stands)
  · rename_i noBody
    split at h
    · rename_i declared
      cases h
      exact .noContent noBody declared
    · cases h

theorem ofOperation_eq_ok {item : PathItem} {o : Operation} {m : EndpointMethod}
    (h : ofOperation document entities owner item o = .ok m) :
    Offers document entities owner o m := by
  obtain ⟨request, asked, h⟩ := bind_eq_ok.mp h
  obtain ⟨response, answered, h⟩ := bind_eq_ok.mp h
  obtain ⟨queryParams, _, h⟩ := bind_eq_ok.mp h
  cases h
  exact ⟨rfl, requestEntity_eq_ok asked, response, rfl, successResponse_eq_ok answered⟩

/-- A method of a path with the operation that is declared for it. -/
def OffersAt (document : Json) (entities : Table Entity) (path : String) (item : PathItem)
    (entry : HttpMethod × EndpointMethod) : Prop :=
  ∃ j o, (entry.1, j) ∈ item.operations ∧ entry.1.isSupported = true ∧
    Description.operation path entry.1 j = .ok o ∧
    Offers document entities (entry.1.name ++ " " ++ path) o entry.2

theorem offers_of_declaredMethods {path : String} {item : PathItem}
    {operations : List (HttpMethod × Json)} {compiled : List (HttpMethod × EndpointMethod)}
    (h : declaredMethods document entities path item operations = .ok compiled)
    (declared : operations ⊆ item.operations) :
    ∀ entry ∈ compiled, OffersAt document entities path item entry := by
  induction operations generalizing compiled with
  | nil =>
    cases h
    exact nofun
  | cons operation rest ih =>
    obtain ⟨m, j⟩ := operation
    obtain ⟨here, later⟩ := List.cons_subset.mp declared
    rw [declaredMethods] at h
    split at h
    · rename_i supported
      obtain ⟨o, read, h⟩ := bind_eq_ok.mp h
      obtain ⟨method, offered, h⟩ := bind_eq_ok.mp h
      obtain ⟨others, rest, h⟩ := bind_eq_ok.mp h
      cases h
      intro entry member
      rcases List.mem_cons.mp member with rfl | member
      · exact ⟨j, o, here, supported, read, ofOperation_eq_ok offered⟩
      · exact ih rest later entry member
    · exact ih h later

theorem offers_of_ofPath {servers : List Server} {options : Options} {path : String}
    {item : PathItem} {e : Endpoint}
    (h : ofPath document servers entities options path item = .ok e) :
    ∀ entry ∈ e.methods, entry.2 = {} ∨ OffersAt document entities path item entry := by
  obtain ⟨compiled, declared, h⟩ := bind_eq_ok.mp h
  cases h
  intro entry member
  rcases List.mem_append.mp (EndpointMethod.mem_of_arrange member) with isBare | isCompiled
  · have isListed : entry ∈ HttpMethod.supported.map (·, ({} : EndpointMethod)) :=
      EndpointMethod.mem_of_arrange isBare
    obtain ⟨m, _, rfl⟩ := List.mem_map.mp isListed
    exact Or.inl rfl
  · exact Or.inr (offers_of_declaredMethods declared (List.Subset.refl _) entry isCompiled)

theorem exists_path_of_ofPaths {servers : List Server} {options : Options}
    {paths : List (String × PathItem)} {endpoints : Table Endpoint}
    (h : ofPaths document servers entities options paths = .ok endpoints) :
    ∀ entry ∈ endpoints, ∃ item, (entry.1, item) ∈ paths ∧
      ofPath document servers entities options entry.1 item = .ok entry.2 := by
  induction paths generalizing endpoints with
  | nil =>
    cases h
    exact nofun
  | cons path rest ih =>
    obtain ⟨path, item⟩ := path
    rw [ofPaths] at h
    obtain ⟨e, here, h⟩ := bind_eq_ok.mp h
    obtain ⟨others, later, h⟩ := bind_eq_ok.mp h
    cases h
    intro entry member
    rcases List.mem_cons.mp member with rfl | member
    · exact ⟨item, by simp, here⟩
    · obtain ⟨item, there, made⟩ := ih later entry member
      exact ⟨item, by simp [there], made⟩

/-- Whatever an endpoint offers comes from an operation of its path. -/
theorem offers_of_collect {d : Description} {servers : List Server} {options : Options}
    {endpoints : Table Endpoint} (h : collect d servers entities options = .ok endpoints) :
    ∃ paths, d.paths = .ok paths ∧ ∀ path e, (path, e) ∈ endpoints →
      ∃ item, (path, item) ∈ paths ∧ ∀ entry ∈ e.methods,
        entry.2 = {} ∨ OffersAt d.document entities path item entry := by
  obtain ⟨paths, read, h⟩ := bind_eq_ok.mp h
  refine ⟨paths, read, fun path e member => ?_⟩
  obtain ⟨item, there, made⟩ := exists_path_of_ofPaths h (path, e) member
  exact ⟨item, there, offers_of_ofPath made⟩

end ApiGraph.Endpoint
