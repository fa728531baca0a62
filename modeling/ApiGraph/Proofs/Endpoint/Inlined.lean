import ApiGraph.Proofs.Endpoint.Described
import ApiGraph.Proofs.Endpoint.Spared
import ApiGraph.Proofs.Json.Fields

/-! Components that are put in the place of references to them. The three kinds of components are
read, refer and contribute each in its own way (`ComponentKind`). An operation with one of its
components replaced contributes the same if the component does (`operationAlike_of_swaps`). -/

namespace ApiGraph

open Json (amendPath)

/-! Kinds of components. -/

inductive ComponentKind where
  | parameter
  | requestBody
  | response
deriving DecidableEq

namespace ComponentKind

def Component : ComponentKind → Type
  | .parameter => Parameter
  | .requestBody => RequestBody
  | .response => Response

def read : (kind : ComponentKind) → Json → Except Mismatch kind.Component
  | .parameter => Parameter.ofJson
  | .requestBody => RequestBody.ofJson
  | .response => Response.ofJson

def ref : (kind : ComponentKind) → kind.Component → Option String
  | .parameter => Parameter.ref
  | .requestBody => RequestBody.ref
  | .response => Response.ref

def fieldNames : ComponentKind → List String
  | .parameter => Parameter.fieldNames
  | .requestBody => RequestBody.fieldNames
  | .response => Response.fieldNames

/-- What an endpoint takes of a component: the name of a query parameter, or the schema of a JSON
body. -/
def Use : ComponentKind → Type
  | .parameter => Option String
  | .requestBody => Option Schema
  | .response => Option Schema

def use : (kind : ComponentKind) → kind.Component → kind.Use
  | .parameter => fun p => if p.isQuery then some p.name else none
  | .requestBody => fun body => body.content.jsonSchema?
  | .response => fun response => response.content.jsonSchema?

/-- The entity that a body with the given schema stands for. -/
def bodyOf (entities : Table Entity) (owner : String) :
    Option Schema → Except Fault (Option String)
  | some schema => Endpoint.entityName entities owner schema
  | none => .ok none

/-- What comes of the use of a component. -/
def stands (entities : Table Entity) (owner : String) :
    (kind : ComponentKind) → kind.Use → Except Fault (Option String)
  | .parameter => .ok
  | .requestBody => bodyOf entities owner
  | .response => bodyOf entities owner

/-- What a component contributes, by itself or through its reference. -/
def contribute (kind : ComponentKind) (document : Json) (entities : Table Entity) (owner : String)
    (c : kind.Component) : Except Fault (Option String) :=
  Endpoint.componentOr document owner kind.read (kind.ref c) c >>= fun d =>
    kind.stands entities owner (kind.use d)

variable {document document' : Json} {entities : Table Entity} {owner raw : String}
  {kind : ComponentKind}

theorem contribute_parameter (p : Parameter) :
    contribute .parameter document entities owner p = Endpoint.queryName? document owner p := rfl

theorem contribute_requestBody (body : RequestBody) :
    contribute .requestBody document entities owner body =
      Endpoint.contentEntity document entities owner RequestBody.ofJson (·.ref) (·.content) body :=
  rfl

theorem contribute_response (response : Response) :
    contribute .response document entities owner response =
      Endpoint.contentEntity document entities owner Response.ofJson (·.ref) (·.content)
        response := rfl

/-- What a reference string leads to in one step is of the same use as the component. -/
def SameUse (document : Json) (kind : ComponentKind) (raw : String) (c : kind.Component) : Prop :=
  ∀ f node d, Reference.ofText raw = .ok (.inFile f) → f.lookup document = some node →
    kind.read node = .ok d → kind.use d = kind.use c

/-- A reference contributes what a component of the same use does. -/
theorem contribute_of_sameUse {c d : kind.Component} (refers : kind.ref c = some raw)
    (proper : kind.ref d = none) (same : SameUse document kind raw d) :
    Gives (kind.contribute document entities owner c)
      (kind.contribute document' entities owner d) := by
  intro found contributes
  obtain ⟨target, leads, contributes⟩ := bind_eq_ok.mp contributes
  rw [refers] at leads
  obtain ⟨f, node, isLocal, isNode, isComponent⟩ := Endpoint.component_eq_ok.mp leads
  rw [same f node target isLocal isNode isComponent] at contributes
  rw [contribute, proper]
  exact contributes

/-- One step is enough if it leads to the end. -/
theorem sameUse_of_direct {f : Fragment} {final : Json} {d : kind.Component}
    (isLocal : Reference.ofText raw = .ok (.inFile f)) (isFinal : f.lookup document = some final)
    (isComponent : kind.read final = .ok d) : SameUse document kind raw d := by
  intro f' node d' isLocal' isNode isComponent'
  cases Except.ok.inj (isLocal.symm.trans isLocal')
  obtain rfl := Option.some.inj (isFinal.symm.trans isNode)
  rw [Except.ok.inj (isComponent.symm.trans isComponent')]

end ComponentKind

/-! Components of operations. -/

namespace Operation

def fieldNames : List String := ["operationId", "parameters", "requestBody", "responses"]

/-- An operation is read field by field. -/
theorem ofJson_eq_ok {j : Json} {o : Operation} : ofJson j = .ok o ↔
    ∃ r, Record.ofJson fieldNames j = .ok r ∧
      r.orElse "operationId" none (Json.orNull Json.toText) = .ok o.operationId ∧
      r.orElse "parameters" [] (Json.toList Parameter.ofJson) = .ok o.parameters ∧
      r.orElse "requestBody" none (Json.orNull RequestBody.ofJson) = .ok o.requestBody ∧
      r.orElse "responses" [] (Json.toTable Response.ofJson) = .ok o.responses := by
  constructor
  · intro h
    obtain ⟨r, isRecord, h⟩ := bind_eq_ok.mp h
    obtain ⟨operationId, isId, h⟩ := bind_eq_ok.mp h
    obtain ⟨parameters, areParameters, h⟩ := bind_eq_ok.mp h
    obtain ⟨requestBody, isBody, h⟩ := bind_eq_ok.mp h
    obtain ⟨responses, areResponses, h⟩ := bind_eq_ok.mp h
    cases h
    exact ⟨r, isRecord, isId, areParameters, isBody, areResponses⟩
  · rintro ⟨r, isRecord, isId, areParameters, isBody, areResponses⟩
    have isRecord' : Record.ofJson ["operationId", "parameters", "requestBody", "responses"] j =
        .ok r := isRecord
    rw [ofJson, isRecord', ok_bind, isId, ok_bind, areParameters, ok_bind, isBody, ok_bind,
      areResponses, ok_bind]
    rfl

/-- A component that stands in an operation, and the keys on the way to it. -/
inductive Has (j : Json) : ComponentKind → List String → Json → Prop
  | parameter {step key : String} {items : List Json} {i : Nat} {node : Json}
    (list : Record.Field fieldNames "parameters" j step (.array items))
    (index : Json.Pointer.index? key.toList = some i) (found : items[i]? = some node) :
    Has j .parameter [step, key] node
  | requestBody {step : String} {node : Json}
    (body : Record.Field fieldNames "requestBody" j step node) : Has j .requestBody [step] node
  | response {step code : String} {responses : Table Json} {node : Json}
    (table : Record.Field fieldNames "responses" j step (.object responses))
    (found : Table.get? responses code = some node) : Has j .response [step, code] node

/-- Operations that are the same but for one component. -/
inductive Swaps : (kind : ComponentKind) → kind.Component → kind.Component →
    Operation → Operation → Prop
  | parameter {o : Operation} {i : Nat} {p q : Parameter} (there : o.parameters[i]? = some p) :
    Swaps .parameter p q o { o with parameters := o.parameters.set i q }
  | requestBody {o : Operation} {body other : RequestBody} (there : o.requestBody = some body) :
    Swaps .requestBody body other o { o with requestBody := some other }
  | response {o : Operation} {code : String} {response other : Response}
    {responses : Table Response} (there : o.responses.get? code = some response)
    (swapped : ∀ key, responses.get? key =
      if code = key then some other else o.responses.get? key) :
    Swaps .response response other o { o with responses }

/-- A value that is read as a body is no null. -/
theorem orNull_requestBody {j : Json} {body : RequestBody} (h : RequestBody.ofJson j = .ok body) :
    Json.orNull RequestBody.ofJson j = .ok (some body) := by
  cases j with
  | null => cases h
  | _ => exact map_eq_ok.mpr ⟨body, h, rfl⟩

/-- An operation with one of its components replaced is read with this component swapped. -/
theorem Has.exists_swaps {j node final : Json} {kind : ComponentKind} {way : List String}
    (has : Has j kind way node) (unrepeated : j.Unrepeated) {o : Operation}
    (read : ofJson j = .ok o) {c d : kind.Component} (isComponent : kind.read node = .ok c)
    (isFinal : kind.read final = .ok d) :
    ∃ o', ofJson (amendPath (fun _ => final) way j) = .ok o' ∧ Swaps kind c d o o' := by
  obtain ⟨r, isRecord, isId, areParameters, isBody, areResponses⟩ := ofJson_eq_ok.mp read
  have unique : fieldNames.Nodup := by decide
  cases has with
  | @parameter step key items i _ list index found =>
    obtain ⟨r', isRecord', law⟩ := list.exists_amended unique isRecord (fun _ => final) [key]
    rw [Record.orElse, list.get? unique isRecord] at areParameters
    obtain ⟨p, there, isParameter⟩ := getElem?_of_mapM areParameters found
    obtain rfl : p = c := Except.ok.inj (isParameter.symm.trans isComponent)
    refine ⟨_, ofJson_eq_ok.mpr ⟨r', isRecord', ?_⟩, .parameter there⟩
    simp only [Record.orElse, law] at isId isBody areResponses ⊢
    refine ⟨isId, ?_, isBody, areResponses⟩
    simp only [amendPath, index]
    exact mapM_modify areParameters found isFinal
  | @requestBody step _ body =>
    obtain ⟨r', isRecord', law⟩ := body.exists_amended unique isRecord (fun _ => final) []
    rw [Record.orElse, body.get? unique isRecord] at isBody
    have there : o.requestBody = some c :=
      Except.ok.inj (isBody.symm.trans (orNull_requestBody isComponent))
    refine ⟨_, ofJson_eq_ok.mpr ⟨r', isRecord', ?_⟩, .requestBody there⟩
    simp only [Record.orElse, law] at isId areParameters areResponses ⊢
    exact ⟨isId, areParameters, orNull_requestBody isFinal, areResponses⟩
  | @response step code responses _ table found =>
    obtain ⟨r', isRecord', law⟩ := table.exists_amended unique isRecord (fun _ => final) [code]
    rw [Record.orElse, table.get? unique isRecord] at areResponses
    have single : (Table.keys responses).Nodup := by
      cases table.unrepeated unrepeated with
      | object unique _ => exact unique
    obtain ⟨response, isResponse, there⟩ := Json.get?_toTable single areResponses found
    obtain rfl : response = c := Except.ok.inj (isResponse.symm.trans isComponent)
    obtain ⟨responses', areResponses', swapped⟩ := Json.toTable_insert single areResponses isFinal
    refine ⟨_, ofJson_eq_ok.mpr ⟨r', isRecord', ?_⟩, .response there swapped⟩
    simp only [Record.orElse, law] at isId areParameters isBody ⊢
    refine ⟨isId, areParameters, isBody, ?_⟩
    simp only [amendPath, Table.amend, found]
    exact areResponses'

end Operation

/-! Operations and path items. -/

namespace Endpoint

variable {document document' : Json} {entities : Table Entity} {owner raw : String}
  {kind : ComponentKind} {item : PathItem} {o o' : Operation} {c d : kind.Component}

theorem get?_of_success? {responses : Table Response} {codes : List Nat} {code : Nat}
    {response : Response} (h : success? responses codes = some (code, response)) :
    responses.get? (toString code) = some response := by
  induction codes with
  | nil => cases h
  | cons first rest ih =>
    rw [success?] at h
    split at h
    · rename_i found
      cases h
      exact found
    · exact ih h

theorem success?_of_swapped {responses responses' : Table Response} {code : String}
    {other : Response} (there : responses.contains code = true)
    (swapped : ∀ key, responses'.get? key = if code = key then some other else responses.get? key)
    (codes : List Nat) : success? responses' codes = (success? responses codes).map fun found =>
      if toString found.1 = code then (found.1, other) else found := by
  induction codes with
  | nil => rfl
  | cons first rest ih =>
    rw [success?, success?, swapped]
    by_cases here : code = toString first
    · subst here
      obtain ⟨response, found⟩ := Option.isSome_iff_exists.mp there
      simp only [found, ↓reduceIte, Option.map_some]
    · rw [if_neg here]
      cases responses.get? (toString first) with
      | none => exact ih
      | some response => simp only [Option.map_some, if_neg (Ne.symm here)]

/-- With one response swapped the success response stands under the same code as before, and what it
contributes changes only if it is the swapped one. -/
theorem successResponse_of_swapped {code : String} {response other : Response}
    {responses : Table Response} (there : o.responses.get? code = some response)
    (swapped : ∀ key, responses.get? key = if code = key then some other else o.responses.get? key)
    (base : Gives (successResponse document entities owner o)
      (successResponse document' entities owner o))
    (gives : ∀ k, success? o.responses successCodes = some (k, response) →
      Gives (ComponentKind.contribute .response document entities owner response)
        (ComponentKind.contribute .response document' entities owner other)) :
    Gives (successResponse document entities owner o)
      (successResponse document' entities owner { o with responses }) := by
  have listed : o.responses.contains code = true := by
    rw [Table.contains, there, Option.isSome_some]
  have swappedFirst := success?_of_swapped listed swapped successCodes
  have declares : ∀ key, responses.contains key = o.responses.contains key := by
    intro key
    rw [Table.contains, Table.contains, swapped]
    by_cases same : code = key
    · rw [if_pos same, ← same, there, Option.isSome_some, Option.isSome_some]
    · rw [if_neg same]
  cases first : success? o.responses successCodes with
  | none =>
    have same : successResponse document' entities owner { o with responses } =
        successResponse document' entities owner o := by
      rw [successResponse_eq, successResponse_eq, swappedFirst, first, declares]
      rfl
    rw [same]
    exact base
  | some found =>
    obtain ⟨k, chosen⟩ := found
    rw [first, Option.map_some] at swappedFirst
    by_cases here : toString k = code
    · obtain rfl : response = chosen := by
        have place := get?_of_success? first
        rw [here, there] at place
        exact Option.some.inj place
      have gives := gives k first
      rw [ComponentKind.contribute_response, ComponentKind.contribute_response] at gives
      rw [successResponse_eq, successResponse_eq, swappedFirst, first, if_pos here]
      exact gives.bind fun _ => Gives.refl _
    · have same : successResponse document' entities owner { o with responses } =
          successResponse document' entities owner o := by
        rw [successResponse_eq, successResponse_eq, swappedFirst, first, if_neg here]
      rw [same]
      exact base

/-- An operation with one of its components swapped contributes the same, if the component does
where it is sought. -/
theorem operationAlike_of_swaps
    (base : OperationAlike document document' entities entities owner item.parameters
      item.parameters o o)
    (swaps : o.Swaps kind c d o') (refers : kind.ref c = some raw)
    (gives : (kind.fieldNames, raw) ∈ componentRefs item o →
      Gives (kind.contribute document entities owner c)
        (kind.contribute document' entities owner d)) :
    OperationAlike document document' entities entities owner item.parameters item.parameters o
      o' := by
  cases swaps with
  | @parameter _ i p q there =>
    refine ⟨base.request, base.response, ?_⟩
    have each := List.forall₂_same.mp base.parameters
    have listed : p ∈ item.parameters ++ o.parameters := by simp [List.mem_of_getElem? there]
    have gives := gives (mem_componentRefs_of_parameter listed refers)
    rw [ComponentKind.contribute_parameter, ComponentKind.contribute_parameter] at gives
    exact List.rel_append (List.forall₂_same.mpr fun p member => each p (by simp [member]))
      (forall₂_set (fun p member => each p (by simp [member])) there gives)
  | requestBody there =>
    have gives := gives (mem_componentRefs_of_requestBody there refers)
    rw [ComponentKind.contribute_requestBody, ComponentKind.contribute_requestBody] at gives
    refine ⟨requestEntity_alike ?_, base.response, base.parameters⟩
    rw [there]
    exact .some gives
  | response there swapped =>
    refine ⟨base.request, successResponse_of_swapped there swapped base.response ?_,
      base.parameters⟩
    exact fun _ first => gives (mem_componentRefs_of_response first refers)

end Endpoint

namespace PathItem

/-- A component that stands in a path item or in one of its operations, and the keys on the way to
it. -/
inductive Has (fields : Table Json) : ComponentKind → List String → Json → Prop
  | parameter {key : String} {items : List Json} {i : Nat} {node : Json}
    (list : Table.get? fields "parameters" = some (.array items))
    (index : Json.Pointer.index? key.toList = some i) (found : items[i]? = some node) :
    Has fields .parameter ["parameters", key] node
  | operation {m : HttpMethod} {j : Json} {kind : ComponentKind} {way : List String} {node : Json}
    (declared : Table.get? fields m.name = some j) (has : Operation.Has j kind way node) :
    Has fields kind (m.name :: way) node

variable {fields : Table Json} {item : PathItem}

/-- Of a changed operation only the operation of this method is another one. -/
theorem operations_amend (entries : item.entries = fields.filter fun entry => entry.1 ∉ fieldNames)
    {m : HttpMethod} {j : Json} (declared : Table.get? fields m.name = some j)
    (change : Json → Json) (item' : PathItem) (entries' : item'.entries =
      (Table.amend fields m.name change).filter fun entry => entry.1 ∉ fieldNames) :
    List.Forall₂ (fun a b => b.1 = a.1 ∧ (b.2 = a.2 ∨ a.2 = j ∧ b.2 = change j))
      (item.operations.filter (·.1.isSupported)) (item'.operations.filter (·.1.isSupported)) := by
  rw [supported_operations entries, supported_operations entries']
  refine List.rel_filterMap ?_ (Table.forall₂_amend fields m.name change)
  rintro ⟨key, old⟩ ⟨key', new⟩ ⟨same, value⟩
  cases same
  rw [supportedOperation?, supportedOperation?]
  cases HttpMethod.ofName? key with
  | none => exact .none
  | some m' =>
    simp only [Option.map_some, Option.filter_some]
    cases m'.isSupported with
    | false => exact .none
    | true =>
      refine .some ⟨rfl, value.imp_right ?_⟩
      rintro ⟨_, found, isNew⟩
      obtain rfl := Option.some.inj (declared.symm.trans found)
      exact ⟨rfl, isNew⟩

variable {document document' : Json} {entities : Table Entity} {path raw : String}
  {kind : ComponentKind} {way : List String} {node final : Json} {c d : kind.Component}

/-- A path item with one of its parameters replaced gives the same endpoint, if the parameter
contributes the same wherever an operation has it. -/
theorem exists_itemAlike_of_parameter {items : List Json} {key : String} {i : Nat}
    {p q : Parameter} (list : Table.get? fields "parameters" = some (.array items))
    (index : Json.Pointer.index? key.toList = some i) (found : items[i]? = some node)
    (read : ofJson (.object fields) = .ok item) (isParameter : Parameter.ofJson node = .ok p)
    (isFinal : Parameter.ofJson final = .ok q)
    (base : ∀ declared ∈ item.operations.filter (·.1.isSupported), ∀ o,
      Operation.ofJson declared.2 = .ok o → ∀ owner, Endpoint.OperationAlike document document'
        entities entities owner item.parameters item.parameters o o)
    (gives : p ∈ item.parameters → ∀ declared ∈ item.operations.filter (·.1.isSupported), ∀ o,
      Operation.ofJson declared.2 = .ok o → ∀ owner,
        Gives (Endpoint.queryName? document owner p) (Endpoint.queryName? document' owner q)) :
    ∃ item', ofJson (amendPath (fun _ => final) ["parameters", key] (.object fields)) = .ok item' ∧
      Endpoint.ItemAlike document document' entities entities (path, item) (path, item') := by
  obtain ⟨_, r, same, isRecord, isNamespace, areParameters, areServers, entries⟩ :=
    ofJson_eq_ok.mp read
  cases same
  have isField : "parameters" ∈ fieldNames := by decide
  obtain ⟨r', isRecord', law⟩ := Record.exists_ofFields_amend isField isRecord
    (amendPath (fun _ => final) [key])
  have whole : r.fields.get? "parameters" = some (.array items) := by
    rw [Record.get?_ofFields isRecord, if_pos isField, list]
  rw [Record.orElse, whole] at areParameters
  obtain ⟨p', there, isParameter'⟩ := getElem?_of_mapM areParameters found
  obtain rfl : p' = p := Except.ok.inj (isParameter'.symm.trans isParameter)
  refine ⟨{ item with parameters := item.parameters.set i q }, ofJson_eq_ok.mpr
    ⟨Table.amend fields "parameters" (amendPath (fun _ => final) [key]), r', rfl, isRecord', ?_⟩,
    Endpoint.itemAlike_of_operations rfl rfl ?_⟩
  · simp only [Record.orElse, law, whole] at isNamespace areServers ⊢
    refine ⟨isNamespace, ?_, areServers, ?_⟩
    · simp only [↓reduceIte, Option.map_some, amendPath, index]
      exact mapM_modify areParameters found isFinal
    · rw [Table.filter_amend (fun name => decide (name ∉ fieldNames)) (by decide), entries]
  · refine List.forall₂_same.mpr fun declared member => ⟨rfl, fun o isOperation => ?_⟩
    refine ⟨o, isOperation, fun owner => ?_⟩
    have same := base declared member o isOperation owner
    have each := List.forall₂_same.mp same.parameters
    have gives := gives (List.mem_of_getElem? there) declared member o isOperation owner
    refine ⟨same.request, same.response, ?_⟩
    exact List.rel_append (forall₂_set (fun p member => each p (by simp [member])) there gives)
      (List.forall₂_same.mpr fun p member => each p (by simp [member]))

/-- A path item with one of its operations changed gives the same endpoint, if the changed operation
contributes the same. -/
theorem exists_itemAlike_of_operation {m : HttpMethod} {j : Json} {change : Json → Json}
    (declared : Table.get? fields m.name = some j) (read : ofJson (.object fields) = .ok item)
    (base : ∀ declared ∈ item.operations.filter (·.1.isSupported), ∀ o,
      Operation.ofJson declared.2 = .ok o → ∀ owner, Endpoint.OperationAlike document document'
        entities entities owner item.parameters item.parameters o o)
    (alike : ∀ declared ∈ item.operations.filter (·.1.isSupported), declared.2 = j → ∀ o,
      Operation.ofJson j = .ok o → ∃ o', Operation.ofJson (change j) = .ok o' ∧
        ∀ owner, Endpoint.OperationAlike document document' entities entities owner
          item.parameters item.parameters o o') :
    ∃ item', ofJson (.object (Table.amend fields m.name change)) = .ok item' ∧
      Endpoint.ItemAlike document document' entities entities (path, item) (path, item') := by
  obtain ⟨_, r, same, isRecord, isNamespace, areParameters, areServers, entries⟩ :=
    ofJson_eq_ok.mp read
  cases same
  have notField : m.name ∉ fieldNames := by cases m <;> decide
  refine ⟨{ item with entries := (Table.amend fields m.name change).filter fun entry =>
      entry.1 ∉ fieldNames },
    ofJson_eq_ok.mpr ⟨_, r, rfl, ?_, isNamespace, areParameters, areServers, rfl⟩,
    Endpoint.itemAlike_of_operations rfl rfl ?_⟩
  · rw [Record.ofFields_congr (Table.filter_amend (fun name => decide (name ∈ fieldNames))
      (by simpa using notField) fields _), isRecord]
  · have changed := operations_amend entries declared change { item with entries := _ } rfl
    refine ((List.forall₂_and_left _ _).mpr ⟨fun _ => id, changed⟩).imp ?_
    rintro declared' declared'' ⟨member, isMethod, value⟩
    refine ⟨isMethod, fun o isOperation => ?_⟩
    rcases value with same | ⟨isOld, isNew⟩
    · exact ⟨o, same ▸ isOperation, base declared' member o isOperation⟩
    · rw [isNew]
      exact alike declared' member isOld o (isOld ▸ isOperation)

/-- A path item with one of its components replaced gives the same endpoint, if the component
contributes the same where it is sought and the references lead to the same records. -/
theorem Has.exists_itemAlike (has : Has fields kind way node)
    (unrepeated : (Json.object fields).Unrepeated)
    (read : ofJson (.object fields) = .ok item) (isComponent : kind.read node = .ok c)
    (refers : kind.ref c = some raw) (isFinal : kind.read final = .ok d)
    (records : ∀ entry ∈ Endpoint.soughtRefs [(path, item)],
      Endpoint.SameRecord document document' entry.1 entry.2)
    (gives : (kind.fieldNames, raw) ∈ Endpoint.soughtRefs [(path, item)] → ∀ owner,
      Gives (kind.contribute document entities owner c)
        (kind.contribute document' entities owner d)) :
    ∃ item', ofJson (amendPath (fun _ => final) way (.object fields)) = .ok item' ∧
      Endpoint.ItemAlike document document' entities entities (path, item) (path, item') := by
  have base : ∀ declared ∈ item.operations.filter (·.1.isSupported), ∀ o,
      Operation.ofJson declared.2 = .ok o → ∀ owner, Endpoint.OperationAlike document document'
        entities entities owner item.parameters item.parameters o o := by
    intro declared member o isOperation owner
    refine Endpoint.operationAlike_of_sameRecord (fun _ => rfl) fun entry isRef => ?_
    exact records entry (Endpoint.componentRefs_subset member isOperation isRef)
  cases has with
  | parameter list index found =>
    refine exists_itemAlike_of_parameter list index found read isComponent isFinal base ?_
    intro there declared member o isOperation owner
    have listed : c ∈ item.parameters ++ o.parameters := List.mem_append_left _ there
    exact gives (Endpoint.componentRefs_subset member isOperation
      (Endpoint.mem_componentRefs_of_parameter listed refers)) owner
  | operation declared has =>
    refine exists_itemAlike_of_operation declared read base ?_
    rintro ⟨m', j'⟩ member rfl o isOperation
    obtain ⟨o', isSwapped, swaps⟩ := has.exists_swaps (unrepeated.get? declared) isOperation
      isComponent isFinal
    refine ⟨o', isSwapped, fun owner => ?_⟩
    refine Endpoint.operationAlike_of_swaps (base _ member o isOperation owner) swaps refers ?_
    exact fun isRef => gives (Endpoint.componentRefs_subset member isOperation isRef) owner

end PathItem

end ApiGraph
