import ApiGraph.Proofs.Endpoint.Arranged
import ApiGraph.Proofs.Endpoint.Spared
import ApiGraph.Proofs.OpenApi.Fields

/-! What an endpoint says of its path item. Each of the four supported methods has its entry, which
is bare if the item does not declare the method (`Describes`). For a declared method the entry holds
the first success code that the operation declares and the names of its query parameters, read
through their references (`Follows`). One lemma for each function on the way from the paths to the
endpoints. -/

namespace ApiGraph

namespace EndpointMethod

theorem mem_arrange {entries : List (HttpMethod × EndpointMethod)} {m : HttpMethod}
    {method : EndpointMethod} :
    (m, method) ∈ arrange entries ↔ entries.reverse.lookup m = some method := by
  rw [arrange, List.mem_filterMap]
  constructor
  · rintro ⟨m', _, found⟩
    obtain ⟨method', found, same⟩ := Option.map_eq_some_iff.mp found
    cases same
    exact found
  · intro found
    refine ⟨m, ?_, by rw [found]; rfl⟩
    cases m <;> decide

end EndpointMethod

namespace Endpoint

/-! References to components. -/

/-- A reference string that leads, through local references only, to a component which is no
reference. -/
inductive LeadsTo {α : Type} (document : Json) (read : Json → Except Mismatch α)
    (ref : α → Option String) : String → Json → α → Prop
  | here {raw : String} {f : Fragment} {node : Json} {c : α}
    (isLocal : Reference.ofText raw = .ok (.inFile f)) (stands : f.lookup document = some node)
    (isComponent : read node = .ok c) (proper : ref c = none) :
    LeadsTo document read ref raw node c
  | onward {raw next : String} {f : Fragment} {node final : Json} {c d : α}
    (isLocal : Reference.ofText raw = .ok (.inFile f)) (stands : f.lookup document = some node)
    (isComponent : read node = .ok c) (refers : ref c = some next)
    (later : LeadsTo document read ref next final d) : LeadsTo document read ref raw final d

/-- A component stands for itself or for what its reference leads to. -/
inductive Means {α : Type} (document : Json) (read : Json → Except Mismatch α)
    (ref : α → Option String) (c : α) : α → Prop
  | itself (proper : ref c = none) : Means document read ref c c
  | referred {raw : String} {node : Json} {d : α} (refers : ref c = some raw)
    (leads : LeadsTo document read ref raw node d) : Means document read ref c d

/-- A component whose reference, if it is one, leads to no further reference. -/
def Direct {α : Type} (document : Json) (read : Json → Except Mismatch α)
    (ref : α → Option String) (c : α) : Prop :=
  ∀ raw f node d, ref c = some raw → Reference.ofText raw = .ok (.inFile f) →
    f.lookup document = some node → read node = .ok d → ref d = none

variable {document : Json} {entities : Table Entity} {owner path : String} {item : PathItem}
  {α : Type} {read : Json → Except Mismatch α} {ref : α → Option String}

/-- What references lead to in the end is no reference. -/
theorem LeadsTo.proper {raw : String} {final : Json} {c : α}
    (leads : LeadsTo document read ref raw final c) : read final = .ok c ∧ ref c = none := by
  induction leads with
  | here _ _ isComponent proper => exact ⟨isComponent, proper⟩
  | onward _ _ _ _ _ ih => exact ih

theorem means_of_componentOr {c d : α} (direct : Direct document read ref c)
    (found : componentOr document owner read (ref c) c = .ok d) : Means document read ref c d := by
  cases isRef : ref c with
  | none =>
    rw [isRef] at found
    obtain rfl := Except.ok.inj found
    exact .itself isRef
  | some raw =>
    rw [isRef] at found
    obtain ⟨f, node, isLocal, stands, isComponent⟩ := component_eq_ok.mp found
    exact .referred isRef
      (.here isLocal stands isComponent (direct raw f node d isRef isLocal stands isComponent))

/-! Methods. -/

/-- The first success code with a body that an operation declares. -/
def declaredCode? (o : Operation) : Option Nat :=
  successCodes.find? fun code => o.responses.contains (toString code)

/-- A parameter with the name that it contributes, if what it means is a query parameter. -/
def Named (document : Json) (p : Parameter) (name : Option String) : Prop :=
  Direct document Parameter.ofJson (·.ref) p → ∃ q, Means document Parameter.ofJson (·.ref) p q ∧
    name = if q.isQuery then some q.name else none

/-- A method that says what its operation declares. -/
structure Follows (document : Json) (item : PathItem) (o : Operation) (m : EndpointMethod) :
    Prop where
  response : ∃ r, m.response = some r ∧ r.successCode = (declaredCode? o).getD noContent ∧
    (declaredCode? o = none → r.entity = none)
  queryParams : ∃ names, List.Forall₂ (Named document) (item.parameters ++ o.parameters) names ∧
    m.queryParams = names.reduceOption.eraseDups

theorem code_of_success? (responses : Table Response) (codes : List Nat) :
    (success? responses codes).map Prod.fst =
      codes.find? fun code => responses.contains (toString code) := by
  induction codes with
  | nil => rfl
  | cons code rest ih =>
    rw [success?, List.find?_cons, Table.contains]
    cases responses.get? (toString code) with
    | none => exact ih
    | some response => rfl

theorem code_of_successResponse {o : Operation} {r : EndpointResponse}
    (h : successResponse document entities owner o = .ok r) :
    r.successCode = (declaredCode? o).getD noContent ∧
      (declaredCode? o = none → r.entity = none) := by
  rw [declaredCode?, ← code_of_success?]
  rw [successResponse_eq] at h
  split at h
  · rename_i code response first
    obtain ⟨entity, _, h⟩ := bind_eq_ok.mp h
    cases h
    rw [first]
    exact ⟨rfl, nofun⟩
  · rename_i none
    split at h
    · cases h
      rw [none]
      exact ⟨rfl, fun _ => rfl⟩
    · cases h

theorem named_of_queryName {p : Parameter} {name : Option String}
    (found : queryName? document owner p = .ok name) : Named document p name := by
  intro direct
  obtain ⟨q, leads, found⟩ := bind_eq_ok.mp found
  exact ⟨q, means_of_componentOr direct leads, (Except.ok.inj found).symm⟩

theorem follows_of_ofOperation {o : Operation} {m : EndpointMethod}
    (h : ofOperation document entities owner item o = .ok m) :
    m.supported = true ∧ Follows document item o m := by
  obtain ⟨request, _, h⟩ := bind_eq_ok.mp h
  obtain ⟨response, answered, h⟩ := bind_eq_ok.mp h
  obtain ⟨names, named, h⟩ := bind_eq_ok.mp h
  cases h
  refine ⟨rfl, ⟨response, rfl, code_of_successResponse answered⟩, ?_⟩
  rw [queryParams_eq] at named
  obtain ⟨found, each, named⟩ := bind_eq_ok.mp named
  obtain rfl := Except.ok.inj named
  exact ⟨found, (forall₂_of_mapM each).imp fun _ _ => named_of_queryName, rfl⟩

/-! Endpoints. -/

/-- An endpoint that says what the path item with the given entries declares. -/
structure Describes (document : Json) (path : String) (fields : Table Json) (item : PathItem)
    (e : Endpoint) : Prop where
  isPath : e.path = path
  methods : e.methods.map Prod.fst = [.delete, .get, .post, .put]
  supported : ∀ entry ∈ e.methods, entry.2.supported = true ↔ entry.1.name ∈ Table.keys fields
  bare : ∀ entry ∈ e.methods, entry.1.name ∉ Table.keys fields → entry.2 = {}
  declared : ∀ entry ∈ e.methods, entry.1.name ∈ Table.keys fields →
    ∃ j o, (entry.1.name, j) ∈ fields ∧ Operation.ofJson j = .ok o ∧
      Follows document item o entry.2

theorem mem_operations {fields : Table Json} (entries : item.entries =
    fields.filter fun entry => entry.1 ∉ PathItem.fieldNames) {m : HttpMethod} {j : Json} :
    (m, j) ∈ item.operations ↔ (m.name, j) ∈ fields := by
  have notField : m.name ∉ PathItem.fieldNames := by cases m <;> decide
  rw [PathItem.operations, entries, List.mem_filterMap]
  constructor
  · rintro ⟨⟨key, j'⟩, member, found⟩
    obtain ⟨m', isMethod, same⟩ := Option.map_eq_some_iff.mp found
    cases same
    rw [← ofName?_eq_some_iff.mp isMethod]
    exact (List.mem_filter.mp member).1
  · intro member
    refine ⟨(m.name, j), List.mem_filter.mpr ⟨member, by simpa using notField⟩, ?_⟩
    have isMethod : HttpMethod.ofName? m.name = some m := ofName?_eq_some_iff.mpr rfl
    simp only [isMethod, Option.map_some]

section

variable {nameSpace : String} {methods : List (HttpMethod × EndpointMethod)}

theorem keys_arrange_bare (supported : ∀ entry ∈ methods, entry.1.isSupported = true) :
    (EndpointMethod.arrange ((bare path nameSpace).methods ++ methods)).map Prod.fst =
      [.delete, .get, .post, .put] := by
  have listed : ∀ m : HttpMethod,
      m ∈ ((bare path nameSpace).methods ++ methods).map Prod.fst ↔ m.isSupported = true := by
    intro m
    have isBare : m ∈ (bare path nameSpace).methods.map Prod.fst ↔ m.isSupported = true := by
      have keys : (bare path nameSpace).methods.map Prod.fst = [.delete, .get, .post, .put] := rfl
      rw [keys]
      cases m <;> decide
    rw [List.map_append, List.mem_append, isBare]
    refine or_iff_left_of_imp fun isMade => ?_
    obtain ⟨entry, member, rfl⟩ := List.mem_map.mp isMade
    exact supported entry member
  simp only [EndpointMethod.keys_arrange, listed]
  decide

/-- A method is as it is compiled, and bare if it is not. -/
theorem mem_arrange_bare {m : HttpMethod} {method : EndpointMethod}
    (arranged : (m, method) ∈
      EndpointMethod.arrange ((bare path nameSpace).methods ++ methods)) :
    (m, method) ∈ methods ∨ m ∉ methods.map Prod.fst ∧ method = {} := by
  rw [EndpointMethod.mem_arrange, List.reverse_append, List.lookup_append] at arranged
  cases made : methods.reverse.lookup m with
  | some compiled =>
    rw [made, Option.some_or] at arranged
    obtain rfl := Option.some.inj arranged
    exact Or.inl (EndpointMethod.mem_of_arrange (EndpointMethod.mem_arrange.mpr made))
  | none =>
    rw [made, Option.none_or] at arranged
    have isBare : (m, method) ∈ HttpMethod.supported.map (·, ({} : EndpointMethod)) :=
      EndpointMethod.mem_of_arrange
        (EndpointMethod.mem_of_arrange (EndpointMethod.mem_arrange.mpr arranged))
    obtain ⟨_, _, same⟩ := List.mem_map.mp isBare
    cases same
    exact Or.inr ⟨lookup_reverse_eq_none_iff.mp made, rfl⟩

end

section

variable {fields : Table Json}
  (entries : item.entries = fields.filter fun entry => entry.1 ∉ PathItem.fieldNames)
  {methods : List (HttpMethod × EndpointMethod)}
  (made : (item.operations.filter (·.1.isSupported)).mapM (compiled document entities path item) =
    .ok methods)
include entries made

theorem declared_of_compiled {m : HttpMethod} {method : EndpointMethod}
    (member : (m, method) ∈ methods) : m.isSupported = true ∧ method.supported = true ∧
      ∃ j o, (m.name, j) ∈ fields ∧ Operation.ofJson j = .ok o ∧
        Follows document item o method := by
  obtain ⟨⟨m', j⟩, declared, found⟩ := (mem_of_mapM made _).mp member
  obtain ⟨isDeclared, isSupported⟩ := List.mem_filter.mp declared
  obtain ⟨o, isOperation, found⟩ := bind_eq_ok.mp found
  obtain ⟨method', offered, found⟩ := bind_eq_ok.mp found
  cases found
  obtain ⟨supported, follows⟩ := follows_of_ofOperation offered
  exact ⟨isSupported, supported, j, o, (mem_operations entries).mp isDeclared,
    mapError_eq_ok.mp isOperation, follows⟩

theorem compiled_of_declared {m : HttpMethod} (isSupported : m.isSupported = true)
    (listed : m.name ∈ Table.keys fields) : m ∈ methods.map Prod.fst := by
  obtain ⟨⟨name, j⟩, member, same⟩ := List.mem_map.mp listed
  obtain rfl : name = m.name := same
  have declared : (m, j) ∈ item.operations.filter (·.1.isSupported) :=
    List.mem_filter.mpr ⟨(mem_operations entries).mpr member, isSupported⟩
  obtain ⟨b, isMade, found⟩ := exists_of_mem_mapM made declared
  obtain ⟨o, _, found⟩ := bind_eq_ok.mp found
  obtain ⟨method, _, found⟩ := bind_eq_ok.mp found
  cases found
  exact List.mem_map_of_mem isMade

end

theorem describes_of_ofPath {servers : List Server} {options : Options} {fields : Table Json}
    (entries : item.entries = fields.filter fun entry => entry.1 ∉ PathItem.fieldNames)
    {e : Endpoint} (h : ofPath document servers entities options path item = .ok e) :
    Describes document path fields item e := by
  obtain ⟨methods, made, h⟩ := bind_eq_ok.mp h
  rw [declaredMethods_eq] at made
  obtain rfl := Except.ok.inj h
  have keys := @keys_arrange_bare path (item.xNamespace.getD options.defaultNamespace) methods
    fun entry member => (declared_of_compiled entries made member).1
  -- An entry is one that was compiled if the item lists its method, and else bare.
  have split : ∀ entry ∈ EndpointMethod.arrange
      ((bare path (item.xNamespace.getD options.defaultNamespace)).methods ++ methods),
      entry.1.name ∈ Table.keys fields ∧ entry ∈ methods ∨
        entry.1.name ∉ Table.keys fields ∧ entry.2 = {} := by
    intro entry member
    have isKey := List.mem_map_of_mem (f := Prod.fst) member
    rw [keys] at isKey
    have isSupported : entry.1.isSupported = true := by
      generalize entry.1 = m at isKey
      cases m <;> revert isKey <;> decide
    rcases mem_arrange_bare member with isMade | ⟨absent, isBare⟩
    · obtain ⟨_, _, j, _, listed, _⟩ := declared_of_compiled entries made isMade
      exact Or.inl ⟨List.mem_map_of_mem (f := Prod.fst) listed, isMade⟩
    · exact Or.inr
        ⟨fun listed => absent (compiled_of_declared entries made isSupported listed), isBare⟩
  refine ⟨rfl, keys, ?_, ?_, ?_⟩
  · intro entry member
    rcases split entry member with ⟨listed, isMade⟩ | ⟨unlisted, isBare⟩
    · exact iff_of_true (declared_of_compiled entries made isMade).2.1 listed
    · rw [isBare]
      exact iff_of_false nofun unlisted
  · intro entry member unlisted
    rcases split entry member with ⟨listed, _⟩ | ⟨_, isBare⟩
    · exact absurd listed unlisted
    · exact isBare
  · intro entry member listed
    rcases split entry member with ⟨_, isMade⟩ | ⟨unlisted, _⟩
    · exact (declared_of_compiled entries made isMade).2.2
    · exact absurd listed unlisted

/-- An entry of the paths of a document with an endpoint that says what the path item declares. -/
def DescribesEntry (document : Json) (entry : String × Json) (endpoint : String × Endpoint) :
    Prop :=
  endpoint.1 = entry.1 ∧ ∃ fields item, entry.2 = .object fields ∧
    PathItem.ofJson entry.2 = .ok item ∧ Describes document entry.1 fields item endpoint.2

theorem ofPaths_eq_ok {servers : List Server} {options : Options}
    {paths : List (String × PathItem)} {endpoints : Table Endpoint}
    (h : ofPaths document servers entities options paths = .ok endpoints) :
    List.Forall₂ (fun entry endpoint => endpoint.1 = entry.1 ∧
      ofPath document servers entities options entry.1 entry.2 = .ok endpoint.2)
      paths endpoints := by
  induction paths generalizing endpoints with
  | nil =>
    cases h
    exact .nil
  | cons entry rest ih =>
    obtain ⟨path, item⟩ := entry
    obtain ⟨e, made, h⟩ := bind_eq_ok.mp h
    obtain ⟨others, later, h⟩ := bind_eq_ok.mp h
    cases h
    exact .cons ⟨rfl, made⟩ (ih later)

/-- There is one endpoint for each path, in their order, and it says what the path item declares. -/
theorem describes_of_collect {d : Description} {servers : List Server} {options : Options}
    {endpoints : Table Endpoint} (h : collect d servers entities options = .ok endpoints) :
    ∃ raw, Description.entries "paths" (d.document.get? "paths") = .ok raw ∧
      List.Forall₂ (DescribesEntry d.document) raw endpoints := by
  obtain ⟨paths, read, h⟩ := bind_eq_ok.mp h
  obtain ⟨raw, isRaw, read⟩ := bind_eq_ok.mp read
  rw [Description.readEntries_eq_mapM] at read
  refine ⟨raw, isRaw, ?_⟩
  refine (forall₂_trans (forall₂_of_mapM read) (ofPaths_eq_ok h)).imp fun entry endpoint => ?_
  rintro ⟨⟨path, item⟩, isEntry, same, made⟩
  obtain ⟨rfl, isItem⟩ := Description.readEntry_eq_ok.mp isEntry
  obtain ⟨fields, _, isObject, _, _, _, _, entries⟩ := PathItem.ofJson_eq_ok.mp isItem
  exact ⟨same, fields, item, isObject, isItem, describes_of_ofPath entries made⟩

end Endpoint

end ApiGraph
