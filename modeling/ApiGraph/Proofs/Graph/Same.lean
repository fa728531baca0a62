import ApiGraph.Graph.Basic
import ApiGraph.Proofs.Effect.Meets
import ApiGraph.Proofs.Table.Order

/-! Graphs that are the same but for the order in which definitions stand. Entities, join tables and
relationships follow the definitions, and so do the key columns behind the other columns of a
table. The namespaces of a graph hold the same names whatever the order of its entities
(`assemble_same`). -/

namespace ApiGraph

def Entity.withoutColumns (e : Entity) : Entity := { e with columns := [] }

def JoinTable.withoutColumns (t : JoinTable) : JoinTable := { t with columns := [] }

/-- Entities with the same columns in some order. -/
structure Entity.Same (e e' : Entity) : Prop where
  besides : e.withoutColumns = e'.withoutColumns
  columns : e.columns.Perm e'.columns

/-- Join tables with the same columns in some order. -/
structure JoinTable.Same (t t' : JoinTable) : Prop where
  besides : t.withoutColumns = t'.withoutColumns
  columns : t.columns.Perm t'.columns

/-- Namespaces with the same names, in some order where they are those of definitions. -/
structure Namespace.Same (n n' : Namespace) : Prop where
  entities : n.entities.Perm n'.entities
  relationships : n.relationships.Perm n'.relationships
  joinTables : n.joinTables.Perm n'.joinTables
  endpoints : n.endpoints = n'.endpoints

/-- Graphs that differ at most in the order of what follows the order of definitions. -/
structure Graph.Same (g g' : Graph) : Prop where
  entities : Table.Alike Entity.Same g.entities g'.entities
  relationships : g.relationships.Perm g'.relationships
  joinTables : Table.Alike JoinTable.Same g.joinTables g'.joinTables
  endpoints : g.endpoints = g'.endpoints
  namespaceNames : g.namespaces.keys = g'.namespaces.keys
  namespaces : Table.Alike Namespace.Same g.namespaces g'.namespaces
  servers : g.servers = g'.servers
  microservices : g.microservices = g'.microservices
  options : g.options = g'.options

namespace Graph

/-- Tables without the columns of what stands in them. -/
def bareEntities (entities : Table Entity) : Table Entity :=
  entities.map fun entry => (entry.1, entry.2.withoutColumns)

def bareJoinTables (joinTables : Table JoinTable) : Table JoinTable :=
  joinTables.map fun entry => (entry.1, entry.2.withoutColumns)

theorem bareEntities_perm {entities entities' : Table Entity}
    (same : Table.Alike Entity.Same entities entities') (unique : entities.keys.Nodup) :
    (bareEntities entities).Perm (bareEntities entities') :=
  (same.mono fun _ _ same => same.besides).map_perm unique

theorem bareJoinTables_perm {joinTables joinTables' : Table JoinTable}
    (same : Table.Alike JoinTable.Same joinTables joinTables') (unique : joinTables.keys.Nodup) :
    (bareJoinTables joinTables).Perm (bareJoinTables joinTables') :=
  (same.mono fun _ _ same => same.besides).map_perm unique

theorem relationshipsOf_bare (entities : Table Entity) :
    relationshipsOf (bareEntities entities) = relationshipsOf entities := by
  simp [relationshipsOf, bareEntities, Table.values, List.flatMap_map, Entity.withoutColumns]

/-- The relationships of a graph follow its entities. -/
theorem relationshipsOf_perm {entities entities' : Table Entity}
    (same : Table.Alike Entity.Same entities entities') (unique : entities.keys.Nodup) :
    (relationshipsOf entities).Perm (relationshipsOf entities') := by
  rw [← relationshipsOf_bare entities, ← relationshipsOf_bare entities']
  exact ((bareEntities_perm same unique).map Prod.snd).flatMap_right _

/-- The foreign keys of a graph follow its entities and join tables. -/
theorem foreignKeys_perm {g g' : Graph} (h : g.Same g') (uniqueEntities : g.entities.keys.Nodup)
    (uniqueJoinTables : g.joinTables.keys.Nodup) : g.foreignKeys.Perm g'.foreignKeys := by
  have columns : ∀ {columns columns' : Table Column}, columns.Perm columns' →
      ∀ key : String × String → ForeignKey,
        ((foreignKeyColumns columns).map key).Perm ((foreignKeyColumns columns').map key) :=
    fun perm key => (perm.filterMap _).map key
  rw [Graph.foreignKeys, Graph.foreignKeys]
  apply List.Perm.append
  · exact h.entities.flatMap_perm uniqueEntities fun _ _ _ same => columns same.columns _
  · exact h.joinTables.flatMap_perm uniqueJoinTables fun _ _ _ same => columns same.columns _

end Graph

namespace Namespace

/-! Assembling namespaces. -/

/-- Something that is taken up into a namespace. -/
structure Addition where
  nameSpace : String
  owner : String
  change : Namespace → Namespace

def ofEntity (entry : String × Entity) : Addition where
  nameSpace := entry.2.nameSpace
  owner := entry.1
  change n :=
    { n with
      entities := n.entities ++ [entry.1]
      relationships := n.relationships ++ entry.2.relationships.keys.map (entry.1 ++ "." ++ ·) }

def ofJoinTable (entry : String × JoinTable) : Addition where
  nameSpace := entry.2.nameSpace
  owner := entry.1
  change n := { n with joinTables := n.joinTables ++ [entry.1] }

def ofEndpoint (entry : String × Endpoint) : Addition where
  nameSpace := entry.2.nameSpace
  owner := entry.1
  change n := { n with endpoints := n.endpoints ++ [entry.1] }

/-- Everything that is taken up, in order. -/
def additions (entities : Table Entity) (joinTables : Table JoinTable)
    (endpoints : Table Endpoint) : List Addition :=
  entities.map ofEntity ++ joinTables.map ofJoinTable ++ endpoints.map ofEndpoint

theorem assemble_eq (entities : Table Entity) (joinTables : Table JoinTable)
    (endpoints : Table Endpoint) : assemble entities joinTables endpoints =
      (additions entities joinTables endpoints).foldlM
        (fun spaces a => change spaces a.nameSpace a.owner a.change) [] := by
  rw [assemble, additions, List.foldlM_append, List.foldlM_append, List.foldlM_map, bind_assoc]
  congr 1
  funext spaces
  rw [List.foldlM_map]
  congr 1
  funext spaces
  rw [List.foldlM_map]
  rfl

/-- The namespaces with one addition more. -/
def take (spaces : Table Namespace) (a : Addition) : Table Namespace :=
  spaces.insertSorted a.nameSpace (a.change ((spaces.get? a.nameSpace).getD {}))

/-- Namespaces are assembled exactly if none of their names is blank. -/
theorem foldlM_change (as : List Addition) (spaces out : Table Namespace) :
    as.foldlM (fun spaces a => change spaces a.nameSpace a.owner a.change) spaces = .ok out ↔
      (∀ a ∈ as, Text.allBlank a.nameSpace = false) ∧ out = as.foldl take spaces := by
  induction as generalizing spaces with
  | nil =>
    simp only [List.foldlM_nil, List.foldl_nil]
    constructor
    · rintro ⟨⟩
      exact ⟨by simp, rfl⟩
    · rintro ⟨_, rfl⟩
      rfl
  | cons a rest ih =>
    rw [List.foldlM_cons, change, List.foldl_cons]
    by_cases blank : Text.allBlank a.nameSpace = true
    · simp [blank, error_bind]
    · rw [if_neg blank, ok_bind]
      refine (ih (take spaces a)).trans ?_
      simp [blank]

/-- The first name that is blank is refused. -/
theorem foldlM_change_error {as : List Addition} {spaces : Table Namespace} {fault : Fault}
    (h : as.foldlM (fun spaces a => change spaces a.nameSpace a.owner a.change) spaces =
      .error fault) : ∃ before a after, as = before ++ a :: after ∧
        (∀ b ∈ before, Text.allBlank b.nameSpace = false) ∧
        Text.allBlank a.nameSpace = true ∧ fault = .missingNamespace a.owner := by
  induction as generalizing spaces with
  | nil => cases h
  | cons a rest ih =>
    rw [List.foldlM_cons, change] at h
    by_cases blank : Text.allBlank a.nameSpace = true
    · rw [if_pos blank] at h
      cases h
      exact ⟨[], a, rest, rfl, by simp, blank, rfl⟩
    · rw [if_neg blank, ok_bind] at h
      obtain ⟨before, b, after, rfl, filled, isBlank, isFault⟩ := ih h
      refine ⟨a :: before, b, after, rfl, ?_, isBlank, isFault⟩
      intro c member
      rcases List.mem_cons.mp member with rfl | later
      · simpa using blank
      · exact filled c later

theorem sorted_foldl (as : List Addition) {spaces : Table Namespace} (h : Table.Sorted spaces) :
    Table.Sorted (as.foldl take spaces) := by
  induction as generalizing spaces with
  | nil => exact h
  | cons a rest ih => exact ih (Table.sorted_insertSorted h _ _)

theorem get?_foldl (as : List Addition) (spaces : Table Namespace) (name : String) :
    (as.foldl take spaces).get? name =
      if ∃ a ∈ as, a.nameSpace = name then
        some ((as.filter (·.nameSpace = name)).foldl (fun n a => a.change n)
          ((spaces.get? name).getD {}))
      else spaces.get? name := by
  induction as generalizing spaces with
  | nil => simp
  | cons a rest ih =>
    rw [List.foldl_cons, ih, take, Table.get?_insertSorted]
    by_cases here : a.nameSpace = name
    · subst name
      by_cases again : ∃ b ∈ rest, b.nameSpace = a.nameSpace
      · simp [again]
      · have none : rest.filter (·.nameSpace = a.nameSpace) = [] := by
          rw [List.filter_eq_nil_iff]
          intro b member
          simpa using fun same => again ⟨b, member, same⟩
        simp [again, none]
    · simp [here]

/-- What is in the namespace of a name. -/
def gather (entities : Table Entity) (joinTables : Table JoinTable) (endpoints : Table Endpoint)
    (name : String) : Namespace where
  entities := (entities.filter (·.2.nameSpace = name)).map (·.1)
  relationships := (entities.filter (·.2.nameSpace = name)).flatMap fun entry =>
    entry.2.relationships.keys.map (entry.1 ++ "." ++ ·)
  joinTables := (joinTables.filter (·.2.nameSpace = name)).map (·.1)
  endpoints := (endpoints.filter (·.2.nameSpace = name)).map (·.1)

theorem foldl_ofEntity (entities : Table Entity) (n : Namespace) :
    (entities.map ofEntity).foldl (fun n a => a.change n) n =
      { n with
        entities := n.entities ++ entities.map (·.1)
        relationships := n.relationships ++ entities.flatMap fun entry =>
          entry.2.relationships.keys.map (entry.1 ++ "." ++ ·) } := by
  induction entities generalizing n with
  | nil => simp
  | cons entry rest ih =>
    rw [List.map_cons, List.foldl_cons, ih]
    simp [ofEntity]

theorem foldl_ofJoinTable (joinTables : Table JoinTable) (n : Namespace) :
    (joinTables.map ofJoinTable).foldl (fun n a => a.change n) n =
      { n with joinTables := n.joinTables ++ joinTables.map (·.1) } := by
  induction joinTables generalizing n with
  | nil => simp
  | cons entry rest ih =>
    rw [List.map_cons, List.foldl_cons, ih]
    simp [ofJoinTable]

theorem foldl_ofEndpoint (endpoints : Table Endpoint) (n : Namespace) :
    (endpoints.map ofEndpoint).foldl (fun n a => a.change n) n =
      { n with endpoints := n.endpoints ++ endpoints.map (·.1) } := by
  induction endpoints generalizing n with
  | nil => simp
  | cons entry rest ih =>
    rw [List.map_cons, List.foldl_cons, ih]
    simp [ofEndpoint]

/-- What is taken up under a name is what is in its namespace. -/
theorem gather_eq (entities : Table Entity) (joinTables : Table JoinTable)
    (endpoints : Table Endpoint) (name : String) :
    ((additions entities joinTables endpoints).filter (·.nameSpace = name)).foldl
      (fun n a => a.change n) {} = gather entities joinTables endpoints name := by
  rw [additions, List.filter_append, List.filter_append, List.filter_map, List.filter_map,
    List.filter_map, List.foldl_append, List.foldl_append, foldl_ofEntity, foldl_ofJoinTable,
    foldl_ofEndpoint]
  rfl

/-- Namespaces are there for the names that occur, sorted, with what is in them. -/
theorem assemble_eq_ok {entities : Table Entity} {joinTables : Table JoinTable}
    {endpoints : Table Endpoint} {spaces : Table Namespace} :
    assemble entities joinTables endpoints = .ok spaces ↔
      (∀ a ∈ additions entities joinTables endpoints, Text.allBlank a.nameSpace = false) ∧
      spaces = (additions entities joinTables endpoints).foldl take [] := by
  rw [assemble_eq, foldlM_change]

theorem get?_assembled (entities : Table Entity) (joinTables : Table JoinTable)
    (endpoints : Table Endpoint) (name : String) :
    ((additions entities joinTables endpoints).foldl take []).get? name =
      if ∃ a ∈ additions entities joinTables endpoints, a.nameSpace = name then
        some (gather entities joinTables endpoints name)
      else none := by
  rw [get?_foldl]
  simp only [Table.get?_nil, Option.getD_none, gather_eq]

theorem sorted_assembled (entities : Table Entity) (joinTables : Table JoinTable)
    (endpoints : Table Endpoint) :
    Table.Sorted ((additions entities joinTables endpoints).foldl take []) :=
  sorted_foldl _ List.Pairwise.nil

theorem mem_keys_assembled {entities : Table Entity} {joinTables : Table JoinTable}
    {endpoints : Table Endpoint} {name : String} :
    name ∈ ((additions entities joinTables endpoints).foldl take []).keys ↔
      ∃ a ∈ additions entities joinTables endpoints, a.nameSpace = name := by
  rw [Table.mem_keys_iff, get?_assembled]
  split <;> simp_all

/-- Additions do not depend on columns. -/
theorem additions_bare (entities : Table Entity) (joinTables : Table JoinTable)
    (endpoints : Table Endpoint) :
    additions (Graph.bareEntities entities) (Graph.bareJoinTables joinTables) endpoints =
      additions entities joinTables endpoints := by
  simp only [additions, Graph.bareEntities, Graph.bareJoinTables, List.map_map]
  rfl

theorem assemble_bare (entities : Table Entity) (joinTables : Table JoinTable)
    (endpoints : Table Endpoint) :
    assemble (Graph.bareEntities entities) (Graph.bareJoinTables joinTables) endpoints =
      assemble entities joinTables endpoints := by
  rw [assemble_eq, assemble_eq, additions_bare]

theorem additions_perm {entities entities' : Table Entity} {joinTables joinTables' : Table JoinTable}
    (sameEntities : entities.Perm entities') (sameJoinTables : joinTables.Perm joinTables')
    (endpoints : Table Endpoint) : (additions entities joinTables endpoints).Perm
      (additions entities' joinTables' endpoints) :=
  ((sameEntities.map _).append (sameJoinTables.map _)).append_right _

theorem gather_perm {entities entities' : Table Entity} {joinTables joinTables' : Table JoinTable}
    (sameEntities : entities.Perm entities') (sameJoinTables : joinTables.Perm joinTables')
    (endpoints : Table Endpoint) (name : String) :
    Namespace.Same (gather entities joinTables endpoints name)
      (gather entities' joinTables' endpoints name) where
  entities := (sameEntities.filter _).map _
  relationships := (sameEntities.filter _).flatMap_right _
  joinTables := (sameJoinTables.filter _).map _
  endpoints := rfl

/-- Namespaces hold the same names whatever the order of entities and join tables. -/
theorem assemble_perm {entities entities' : Table Entity} {joinTables joinTables' : Table JoinTable}
    {endpoints : Table Endpoint} {spaces : Table Namespace}
    (sameEntities : entities.Perm entities') (sameJoinTables : joinTables.Perm joinTables')
    (h : assemble entities joinTables endpoints = .ok spaces) :
    ∃ spaces', assemble entities' joinTables' endpoints = .ok spaces' ∧
      spaces.keys = spaces'.keys ∧ Table.Alike Namespace.Same spaces spaces' := by
  have perm := additions_perm sameEntities sameJoinTables endpoints
  obtain ⟨filled, rfl⟩ := assemble_eq_ok.mp h
  have filled' : ∀ a ∈ additions entities' joinTables' endpoints,
      Text.allBlank a.nameSpace = false := fun a member => filled a (perm.mem_iff.mpr member)
  have sameKeys := Table.keys_eq_of_sorted (sorted_assembled entities joinTables endpoints)
    (sorted_assembled entities' joinTables' endpoints)
    (fun name => by simp only [mem_keys_assembled, perm.mem_iff])
  refine ⟨_, assemble_eq_ok.mpr ⟨filled', rfl⟩, sameKeys, by rw [sameKeys], ?_⟩
  intro name value value' found found'
  rw [get?_assembled] at found found'
  split at found
  · split at found'
    · cases found
      cases found'
      exact gather_perm sameEntities sameJoinTables endpoints name
    · cases found'
  · cases found

/-- The namespaces of the same entities and join tables hold the same names. -/
theorem assemble_same {entities entities' : Table Entity} {joinTables joinTables' : Table JoinTable}
    {endpoints : Table Endpoint} {spaces : Table Namespace}
    (sameEntities : Table.Alike Entity.Same entities entities')
    (uniqueEntities : entities.keys.Nodup)
    (sameJoinTables : Table.Alike JoinTable.Same joinTables joinTables')
    (uniqueJoinTables : joinTables.keys.Nodup)
    (h : assemble entities joinTables endpoints = .ok spaces) :
    ∃ spaces', assemble entities' joinTables' endpoints = .ok spaces' ∧
      spaces.keys = spaces'.keys ∧ Table.Alike Namespace.Same spaces spaces' := by
  rw [← assemble_bare] at h
  rw [← assemble_bare entities']
  exact assemble_perm (Graph.bareEntities_perm sameEntities uniqueEntities)
    (Graph.bareJoinTables_perm sameJoinTables uniqueJoinTables) h

end Namespace

end ApiGraph
