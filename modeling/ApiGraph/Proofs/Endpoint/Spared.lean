import ApiGraph.Proofs.Endpoint.Alike

/-! What endpoints read through references. A component is read as a record, so of what a reference
leads to only the named fields count. Of the entities only the names count. Path items that are the
same but for what is no supported method give the same endpoints if their references lead to the
same records (`itemAlike_of_sameRecord`). -/

namespace ApiGraph

open Record (Resembles)

/-! Readers of components. -/

/-- Of a record only the named fields are read. -/
def ReadsOnly {α : Type} (names : List String) (read : Json → Except Mismatch α) : Prop :=
  ∀ j j', Resembles names j j' → Gives (read j) (read j')

theorem readsOnly_record {α : Type} {names : List String} {next : Record Json → Except Mismatch α}
    (reads : ∀ r r' : Record Json, (∀ key, r'.fields.get? key = r.fields.get? key) →
      next r' = next r) :
    ReadsOnly names fun j => Record.ofJson names j >>= next := by
  intro j j' resembles a read
  obtain ⟨r, isRecord, read⟩ := bind_eq_ok.mp read
  obtain ⟨r', isRecord', same⟩ := Record.ofJson_resembles resembles isRecord
  refine bind_eq_ok.mpr ⟨r', isRecord', ?_⟩
  rw [reads r r' same]
  exact read

def Parameter.fieldNames : List String := ["$ref", "name", "in", "required"]

def RequestBody.fieldNames : List String := ["$ref", "content"]

def Response.fieldNames : List String := ["$ref", "description", "content"]

theorem Parameter.readsOnly : ReadsOnly fieldNames ofJson := by
  apply readsOnly_record
  intro r r' same
  simp only [Record.orElse_congr (same _)]

theorem RequestBody.readsOnly : ReadsOnly fieldNames ofJson := by
  apply readsOnly_record
  intro r r' same
  simp only [Record.orElse_congr (same _)]

theorem Response.readsOnly : ReadsOnly fieldNames ofJson := by
  apply readsOnly_record
  intro r r' same
  simp only [Record.orElse_congr (same _)]

/-- The supported method of an entry of a path item. -/
def PathItem.supportedOperation? (entry : String × Json) : Option (HttpMethod × Json) :=
  ((HttpMethod.ofName? entry.1).map (·, entry.2)).filter (·.1.isSupported)

theorem ofName?_eq_some_iff {name : String} {m : HttpMethod} :
    HttpMethod.ofName? name = some m ↔ name = m.name := by
  constructor
  · intro h
    have named : HttpMethod.all.find? (·.name == name) = some m := h
    have same := List.find?_some named
    exact (beq_iff_eq.mp same).symm
  · rintro rfl
    cases m <;> decide

theorem PathItem.supported_operations {item : PathItem} {fields : Table Json}
    (entries : item.entries = fields.filter fun entry => entry.1 ∉ fieldNames) :
    item.operations.filter (·.1.isSupported) = fields.filterMap supportedOperation? := by
  rw [operations, entries, List.filter_filterMap, List.filterMap_filter]
  apply List.filterMap_congr
  rintro ⟨key, j⟩ _
  cases isMethod : HttpMethod.ofName? key with
  | none => simp [supportedOperation?, isMethod]
  | some m =>
    obtain rfl := ofName?_eq_some_iff.mp isMethod
    have notField : m.name ∉ fieldNames := by cases m <;> decide
    simp [supportedOperation?, isMethod, notField]

/-- Path items that are the same but for what is no supported method. -/
structure PathItem.Same (item item' : PathItem) : Prop where
  xNamespace : item'.xNamespace = item.xNamespace
  parameters : item'.parameters = item.parameters
  servers : item'.servers = item.servers
  operations : item'.operations.filter (·.1.isSupported) =
    item.operations.filter (·.1.isSupported)

theorem PathItem.Same.refl (item : PathItem) : item.Same item := ⟨rfl, rfl, rfl, rfl⟩

namespace Endpoint

/-! References to components. -/

variable {document document' : Json} {entities entities' : Table Entity} {owner : String}
  {names : List String} {raw : String} {item item' : PathItem}

/-- A local reference that leads to a record leads to the same one in the other document. -/
def SameRecord (document document' : Json) (names : List String) (raw : String) : Prop :=
  ∀ f node, Reference.ofText raw = .ok (.inFile f) → f.lookup document = some node →
    ∃ node', f.lookup document' = some node' ∧ Resembles names node node'

/-- The references to components that are followed for an operation, each with the fields that are
read of what it leads to. -/
def componentRefs (item : PathItem) (o : Operation) : List (List String × String) :=
  (item.parameters ++ o.parameters).filterMap (fun p => p.ref.map (Parameter.fieldNames, ·)) ++
  (o.requestBody.bind (·.ref)).toList.map (RequestBody.fieldNames, ·) ++
  ((success? o.responses successCodes).bind (·.2.ref)).toList.map (Response.fieldNames, ·)

theorem mem_componentRefs_of_parameter {o : Operation} {p : Parameter}
    (member : p ∈ item.parameters ++ o.parameters) (isRef : p.ref = some raw) :
    (Parameter.fieldNames, raw) ∈ componentRefs item o := by
  rw [componentRefs, List.mem_append, List.mem_append, List.mem_filterMap]
  exact Or.inl (Or.inl ⟨p, member, by rw [isRef]; rfl⟩)

theorem mem_componentRefs_of_requestBody {o : Operation} {body : RequestBody}
    (there : o.requestBody = some body) (isRef : body.ref = some raw) :
    (RequestBody.fieldNames, raw) ∈ componentRefs item o := by
  simp [componentRefs, there, isRef]

theorem mem_componentRefs_of_response {o : Operation} {code : Nat} {response : Response}
    (first : success? o.responses successCodes = some (code, response))
    (isRef : response.ref = some raw) : (Response.fieldNames, raw) ∈ componentRefs item o := by
  simp [componentRefs, first, isRef]

/-- All of them, for the supported methods that path items declare. -/
def soughtRefs (paths : Table PathItem) : List (List String × String) :=
  paths.flatMap fun entry =>
    (entry.2.operations.filter (·.1.isSupported)).flatMap fun declared =>
      match Operation.ofJson declared.2 with
      | .ok o => componentRefs entry.2 o
      | .error _ => []

theorem componentRefs_subset {path : String} {declared : HttpMethod × Json} {o : Operation}
    (member : declared ∈ item.operations.filter (·.1.isSupported))
    (isOperation : Operation.ofJson declared.2 = .ok o) :
    componentRefs item o ⊆ soughtRefs [(path, item)] := by
  intro entry isRef
  rw [soughtRefs, List.flatMap_singleton]
  refine List.mem_flatMap.mpr ⟨declared, member, ?_⟩
  rw [isOperation]
  exact isRef

theorem component_alike {α : Type} {read : Json → Except Mismatch α} (reads : ReadsOnly names read)
    (same : SameRecord document document' names raw) :
    Gives (component document owner read raw) (component document' owner read raw) := by
  intro c found
  obtain ⟨f, node, isLocal, stands, isComponent⟩ := component_eq_ok.mp found
  obtain ⟨node', stands', resembles⟩ := same f node isLocal stands
  exact component_eq_ok.mpr ⟨f, node', isLocal, stands', reads node node' resembles c isComponent⟩

theorem componentOr_alike {α : Type} {read : Json → Except Mismatch α}
    (reads : ReadsOnly names read) {ref : Option String}
    (same : ∀ raw, ref = some raw → SameRecord document document' names raw) (inline : α) :
    Gives (componentOr document owner read ref inline)
      (componentOr document' owner read ref inline) := by
  cases ref with
  | none => exact Gives.refl _
  | some raw => exact component_alike reads (same raw rfl)

/-- Of the entities only the names count. -/
theorem bodyEntity_congr (same : ∀ name, entities'.contains name = entities.contains name)
    (owner : String) (content : Content) :
    bodyEntity entities' owner content = bodyEntity entities owner content := by
  simp only [bodyEntity, entityName, same]

theorem contentEntity_alike {α : Type} {read : Json → Except Mismatch α} {ref : α → Option String}
    (sameNames : ∀ name, entities'.contains name = entities.contains name)
    (reads : ReadsOnly names read) {c : α}
    (same : ∀ raw, ref c = some raw → SameRecord document document' names raw)
    (content : α → Content) :
    Gives (contentEntity document entities owner read ref content c)
      (contentEntity document' entities' owner read ref content c) := by
  refine (componentOr_alike reads same c).bind fun d => ?_
  rw [bodyEntity_congr sameNames]
  exact Gives.refl _

theorem queryName?_alike {p : Parameter}
    (same : ∀ raw, p.ref = some raw →
      SameRecord document document' Parameter.fieldNames raw) :
    Gives (queryName? document owner p) (queryName? document' owner p) :=
  (componentOr_alike Parameter.readsOnly same p).bind fun _ => Gives.refl _

/-! Operations and path items. -/

section

variable (sameNames : ∀ name, entities'.contains name = entities.contains name)
include sameNames

theorem operationAlike_of_sameRecord {o : Operation}
    (same : ∀ entry ∈ componentRefs item o, SameRecord document document' entry.1 entry.2) :
    OperationAlike document document' entities entities' owner item.parameters item.parameters o
      o where
  request := by
    refine requestEntity_alike ?_
    cases there : o.requestBody with
    | none => exact .none
    | some body =>
      refine .some (contentEntity_alike sameNames RequestBody.readsOnly (fun raw isRef => ?_) _)
      exact same (_, raw) (mem_componentRefs_of_requestBody there isRef)
  response := by
    rw [successResponse_eq, successResponse_eq]
    cases found : success? o.responses successCodes with
    | none => exact Gives.refl _
    | some first =>
      obtain ⟨code, response⟩ := first
      refine Gives.bind (contentEntity_alike sameNames Response.readsOnly (fun raw isRef => ?_) _)
        fun _ => Gives.refl _
      exact same (_, raw) (mem_componentRefs_of_response found isRef)
  parameters := by
    refine List.forall₂_same.mpr fun p member => queryName?_alike fun raw isRef => ?_
    exact same (_, raw) (mem_componentRefs_of_parameter member isRef)

/-- Path items that are the same but for what is no supported method give the same endpoints if
their references lead to the same records. -/
theorem itemAlike_of_sameRecord {path : String} (sameItem : item.Same item')
    (same : ∀ entry ∈ soughtRefs [(path, item)],
      SameRecord document document' entry.1 entry.2) :
    ItemAlike document document' entities entities' (path, item) (path, item') := by
  refine itemAlike_of_operations sameItem.xNamespace sameItem.servers ?_
  rw [sameItem.operations]
  refine List.forall₂_same.mpr fun declared member => ⟨rfl, fun o isOperation => ?_⟩
  refine ⟨o, isOperation, fun owner => ?_⟩
  rw [sameItem.parameters]
  refine operationAlike_of_sameRecord sameNames fun entry isRef => same entry ?_
  exact componentRefs_subset member isOperation isRef

end

theorem soughtRefs_subset {paths : Table PathItem} {entry : String × PathItem}
    (member : entry ∈ paths) : soughtRefs [entry] ⊆ soughtRefs paths := by
  intro found isRef
  rw [soughtRefs, List.flatMap_singleton] at isRef
  exact List.mem_flatMap.mpr ⟨entry, member, isRef⟩

end Endpoint

end ApiGraph
