import ApiGraph.Endpoint.Collect
import ApiGraph.Proofs.Json.Record
import Mathlib.Data.List.ReduceOption

/-! Endpoints of two descriptions, step by step. A component counts only by what it contributes: a
body by the entity it stands for, a parameter by its name, if it is one of the query. If all
components contribute the same in both descriptions, the endpoints are the same
(`collect_alike`). -/

namespace ApiGraph.Endpoint

variable {document document' : Json} {entities entities' : Table Entity} {owner : String}

/-! What components contribute. -/

theorem component_eq_ok {α : Type} {read : Json → Except Mismatch α} {raw : String} {c : α} :
    component document owner read raw = .ok c ↔ ∃ f node,
      Reference.ofText raw = .ok (.inFile f) ∧ f.lookup document = some node ∧
        read node = .ok c := by
  constructor
  · intro h
    obtain ⟨r, isRef, h⟩ := bind_eq_ok.mp h
    cases r with
    | external path fragment => cases h
    | inFile f =>
      simp only at h
      split at h
      · cases h
      · rename_i node stands
        exact ⟨f, node, isRef, stands, mapError_eq_ok.mp h⟩
  · rintro ⟨f, node, isRef, stands, isComponent⟩
    rw [component, isRef, ok_bind]
    simp only [stands]
    exact mapError_eq_ok.mpr isComponent

/-- The entity that a component with contents stands for. -/
def contentEntity {α : Type} (document : Json) (entities : Table Entity) (owner : String)
    (read : Json → Except Mismatch α) (ref : α → Option String) (content : α → Content) (c : α) :
    Except Fault (Option String) := do
  bodyEntity entities owner (content (← componentOr document owner read (ref c) c))

/-- The name of a parameter, if it is one of the query. -/
def queryName? (document : Json) (owner : String) (p : Parameter) :
    Except Fault (Option String) := do
  let p ← componentOr document owner Parameter.ofJson p.ref p
  return if p.isQuery then some p.name else none

theorem requestEntity_eq (o : Operation) : requestEntity document entities owner o =
    match o.requestBody with
    | some body => contentEntity document entities owner RequestBody.ofJson (·.ref) (·.content) body
    | none => .ok none := rfl

theorem successResponse_eq (o : Operation) : successResponse document entities owner o =
    match success? o.responses successCodes with
    | some (code, response) => do
      return ⟨code, ← contentEntity document entities owner Response.ofJson (·.ref) (·.content)
        response⟩
    | none =>
      if o.responses.contains (toString noContent) then .ok ⟨noContent, none⟩
      else .error (.unsupportedShape owner .noSuccessResponse) := by
  rw [successResponse]
  cases success? o.responses successCodes with
  | none => rfl
  | some found => exact (bind_assoc _ _ _).symm

theorem eraseDups_eq_foldl (names : List String) : names.eraseDups =
    names.foldl (fun names name => if name ∈ names then names else names ++ [name]) [] := by
  induction names using List.reverseRecOn with
  | nil => rfl
  | append_singleton names name ih =>
    rw [List.foldl_append, ← ih, List.eraseDups_append]
    by_cases again : name ∈ names
    · simp [List.removeAll, List.mem_eraseDups, again]
    · simp [List.removeAll, List.eraseDups_cons, List.mem_eraseDups, again]

/-- The names of the query are those that the parameters contribute, each where it comes first. -/
theorem queryParams_eq (ps : List Parameter) : queryParams document owner [] ps = do
    return (← ps.mapM (queryName? document owner)).reduceOption.eraseDups := by
  have step : ∀ names, queryParams document owner names ps = do
      return (← ps.mapM (queryName? document owner)).reduceOption.foldl
        (fun names name => if name ∈ names then names else names ++ [name]) names := by
    induction ps with
    | nil => exact fun _ => rfl
    | cons p rest ih =>
      intro names
      rw [queryParams, List.mapM_cons, queryName?]
      cases componentOr document owner Parameter.ofJson p.ref p with
      | error fault => rfl
      | ok p =>
        simp only [ok_bind, pure_bind, bind_assoc, ih]
        congr 1
        funext found
        by_cases isQuery : p.isQuery = true
        · simp [isQuery, List.reduceOption_cons_of_some, ite_not]
        · simp [isQuery, List.reduceOption_cons_of_none]
  rw [step]
  simp only [eraseDups_eq_foldl]

/-! Endpoints of two descriptions. -/

theorem requestEntity_alike {o o' : Operation}
    (same : Option.Rel (fun body body' => Gives
      (contentEntity document entities owner RequestBody.ofJson (·.ref) (·.content) body)
      (contentEntity document' entities' owner RequestBody.ofJson (·.ref) (·.content) body'))
      o.requestBody o'.requestBody) :
    Gives (requestEntity document entities owner o)
      (requestEntity document' entities' owner o') := by
  rw [requestEntity_eq, requestEntity_eq]
  generalize o.requestBody = body, o'.requestBody = body' at same
  cases same with
  | none => exact Gives.refl _
  | some gives => exact gives

/-- An operation and one that contributes the same in the other document, with the parameters of
their path items. -/
structure OperationAlike (document document' : Json) (entities entities' : Table Entity)
    (owner : String) (ps ps' : List Parameter) (o o' : Operation) : Prop where
  request : Gives (requestEntity document entities owner o)
    (requestEntity document' entities' owner o')
  response : Gives (successResponse document entities owner o)
    (successResponse document' entities' owner o')
  parameters : List.Forall₂
    (fun p p' => Gives (queryName? document owner p) (queryName? document' owner p'))
    (ps ++ o.parameters) (ps' ++ o'.parameters)

theorem ofOperation_alike {item item' : PathItem} {o o' : Operation}
    (alike : OperationAlike document document' entities entities' owner item.parameters
      item'.parameters o o') :
    Gives (ofOperation document entities owner item o)
      (ofOperation document' entities' owner item' o') := by
  refine alike.request.bind fun _ => alike.response.bind fun _ => ?_
  rw [queryParams_eq, queryParams_eq]
  exact ((Gives.mapM alike.parameters).bind fun _ => Gives.refl _).bind fun _ => Gives.refl _

/-- A declared method as it is compiled. -/
def compiled (document : Json) (entities : Table Entity) (path : String) (item : PathItem)
    (declared : HttpMethod × Json) : Except Fault (HttpMethod × EndpointMethod) := do
  let operation ← Description.operation path declared.1 declared.2
  return (declared.1,
    ← ofOperation document entities (declared.1.name ++ " " ++ path) item operation)

theorem declaredMethods_eq (path : String) (item : PathItem)
    (operations : List (HttpMethod × Json)) :
    declaredMethods document entities path item operations =
      (operations.filter (·.1.isSupported)).mapM (compiled document entities path item) := by
  induction operations with
  | nil => rfl
  | cons declared rest ih =>
    obtain ⟨m, j⟩ := declared
    rw [declaredMethods, List.filter_cons]
    by_cases supported : m.isSupported = true
    · rw [if_pos supported, if_pos supported, List.mapM_cons, ih, compiled]
      simp only [bind_assoc, pure_bind]
    · rw [if_neg supported, if_neg supported, ih]

/-- A path item and one whose operations contribute the same in the other document. -/
structure ItemAlike (document document' : Json) (entities entities' : Table Entity)
    (entry entry' : String × PathItem) : Prop where
  path : entry'.1 = entry.1
  xNamespace : entry'.2.xNamespace = entry.2.xNamespace
  servers : entry'.2.servers = entry.2.servers
  operations : List.Forall₂
    (fun declared declared' => Gives (compiled document entities entry.1 entry.2 declared)
      (compiled document' entities' entry'.1 entry'.2 declared'))
    (entry.2.operations.filter (·.1.isSupported)) (entry'.2.operations.filter (·.1.isSupported))

theorem itemAlike_of_operations {path : String} {item item' : PathItem}
    (xNamespace : item'.xNamespace = item.xNamespace) (servers : item'.servers = item.servers)
    (operations : List.Forall₂ (fun declared declared' => declared'.1 = declared.1 ∧
      ∀ o, Operation.ofJson declared.2 = .ok o → ∃ o', Operation.ofJson declared'.2 = .ok o' ∧
        ∀ owner, OperationAlike document document' entities entities' owner item.parameters
          item'.parameters o o')
      (item.operations.filter (·.1.isSupported)) (item'.operations.filter (·.1.isSupported))) :
    ItemAlike document document' entities entities' (path, item) (path, item') where
  path := rfl
  xNamespace := xNamespace
  servers := servers
  operations := by
    refine operations.imp ?_
    rintro ⟨m, j⟩ ⟨m', j'⟩ ⟨same, alike⟩
    cases same
    intro made compiles
    obtain ⟨o, isOperation, compiles⟩ := bind_eq_ok.mp compiles
    obtain ⟨o', isOperation', alike⟩ := alike o (mapError_eq_ok.mp isOperation)
    refine bind_eq_ok.mpr ⟨o', mapError_eq_ok.mpr isOperation', ?_⟩
    exact (ofOperation_alike (alike _)).bind (fun _ => Gives.refl _) made compiles

theorem ofPaths_alike (servers : List Server) (options : Options)
    {paths paths' : List (String × PathItem)}
    (alike : List.Forall₂ (ItemAlike document document' entities entities') paths paths') :
    Gives (ofPaths document servers entities options paths)
      (ofPaths document' servers entities' options paths') := by
  induction alike with
  | nil => exact Gives.refl _
  | @cons entry entry' _ _ first _ ih =>
    obtain ⟨path, item⟩ := entry
    obtain ⟨path', item'⟩ := entry'
    obtain ⟨rfl, xNamespace, isServers, operations⟩ := first
    refine Gives.bind ?_ fun _ => ih.bind fun _ => Gives.refl _
    rw [ofPath, ofPath, declaredMethods_eq, declaredMethods_eq, xNamespace, isServers]
    exact (Gives.mapM operations).bind fun _ => Gives.refl _

/-- If all operations contribute the same, the endpoints are the same. -/
theorem collect_alike {d d' : Description} (servers : List Server) (options : Options)
    (alike : ∀ paths, d.paths = .ok paths → ∃ paths', d'.paths = .ok paths' ∧
      List.Forall₂ (ItemAlike d.document d'.document entities entities') paths paths') :
    Gives (collect d servers entities options) (collect d' servers entities' options) := by
  intro endpoints collected
  obtain ⟨paths, read, collected⟩ := bind_eq_ok.mp collected
  obtain ⟨paths', read', alike⟩ := alike paths read
  exact bind_eq_ok.mpr ⟨paths', read', ofPaths_alike servers options alike endpoints collected⟩

end ApiGraph.Endpoint
