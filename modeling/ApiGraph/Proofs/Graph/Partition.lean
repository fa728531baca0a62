import ApiGraph.Proofs.Graph.Same
import ApiGraph.Proofs.Text.Trim

/-! Namespaces part what a graph holds. Each entity, join table and endpoint stands in the namespace
that it names and in no other, and the lists of a namespace keep the order of what was taken up
(`Partition`). There are no namespaces at all if one of the names is blank; then the first item with
such a name is reported (`assemble_partitions`). -/

namespace ApiGraph

/-- Items that are told apart by a name, put together again name by name, are all of them. -/
theorem flatMap_filter_perm {α β : Type} [DecidableEq β] (name : α → β) {names : List β}
    (unique : names.Nodup) {items : List α} (named : ∀ a ∈ items, name a ∈ names) :
    (names.flatMap fun n => items.filter (name · = n)).Perm items := by
  induction names generalizing items with
  | nil =>
    have none : items = [] := List.eq_nil_iff_forall_not_mem.mpr fun a member =>
      List.not_mem_nil (named a member)
    rw [none]
    exact List.Perm.refl _
  | cons first rest ih =>
    obtain ⟨single, unique⟩ := List.nodup_cons.mp unique
    have later : (rest.flatMap fun n => items.filter (name · = n)) =
        rest.flatMap fun n =>
          (items.filter fun a => !decide (name a = first)).filter (name · = n) := by
      refine List.flatMap_congr fun n member => ?_
      rw [List.filter_filter]
      refine List.filter_congr fun a _ => ?_
      by_cases same : name a = n
      · have other : n ≠ first := fun same => single (same ▸ member)
        simp [same, other]
      · simp [same]
    rw [List.flatMap_cons, later]
    refine ((ih unique fun a member => ?_).append_left _).trans (List.filter_append_perm _ _)
    obtain ⟨listed, other⟩ := List.mem_filter.mp member
    exact List.mem_of_ne_of_mem (by simpa using other) (named a listed)

namespace Namespace

section

variable (entities : Table Entity) (joinTables : Table JoinTable) (endpoints : Table Endpoint)

/-- Everything that names a namespace, with the name, in the order in which it is taken up. -/
def members : List (String × String) :=
  entities.map (fun entry => (entry.1, entry.2.nameSpace)) ++
  joinTables.map (fun entry => (entry.1, entry.2.nameSpace)) ++
  endpoints.map fun entry => (entry.1, entry.2.nameSpace)

/-- The first item whose namespace is nothing but white space. -/
def firstBlank? : Option String :=
  ((members entities joinTables endpoints).find? fun item =>
    (Text.trim item.2.toList).isEmpty).map Prod.fst

/-- How namespaces part entities, join tables and endpoints. -/
structure Partition (spaces : Table Namespace) : Prop where
  sorted : spaces.Sorted
  occurs : ∀ name, name ∈ spaces.keys ↔
    name ∈ (members entities joinTables endpoints).map Prod.snd
  filled : ∀ entry ∈ spaces, entry.2.isEmpty = false
  holds : ∀ entry ∈ spaces, entry.2 = gather entities joinTables endpoints entry.1
  /-- Over all namespaces nothing is lost and nothing stands twice. -/
  entitiesOnce : (spaces.flatMap (·.2.entities)).Perm entities.keys
  relationshipsOnce : (spaces.flatMap (·.2.relationships)).Perm
    (entities.flatMap fun entry => entry.2.relationships.keys.map (entry.1 ++ "." ++ ·))
  joinTablesOnce : (spaces.flatMap (·.2.joinTables)).Perm joinTables.keys
  endpointsOnce : (spaces.flatMap (·.2.endpoints)).Perm endpoints.keys

theorem members_eq : members entities joinTables endpoints =
    (additions entities joinTables endpoints).map fun a => (a.owner, a.nameSpace) := by
  simp only [members, additions, List.map_append, List.map_map]
  rfl

theorem exists_addition_iff (name : String) :
    (∃ a ∈ additions entities joinTables endpoints, a.nameSpace = name) ↔
      name ∈ (members entities joinTables endpoints).map Prod.snd := by
  rw [members_eq, List.map_map, List.mem_map]
  rfl

theorem mem_names_iff (name : String) :
    name ∈ (members entities joinTables endpoints).map Prod.snd ↔
      (∃ entry ∈ entities, entry.2.nameSpace = name) ∨
      (∃ entry ∈ joinTables, entry.2.nameSpace = name) ∨
      ∃ entry ∈ endpoints, entry.2.nameSpace = name := by
  simp only [members, List.map_append, List.map_map, List.mem_append, List.mem_map,
    Function.comp_apply, or_assoc]

theorem firstBlank?_eq_none_iff : firstBlank? entities joinTables endpoints = none ↔
    ∀ a ∈ additions entities joinTables endpoints, Text.allBlank a.nameSpace = false := by
  rw [firstBlank?, Option.map_eq_none_iff, List.find?_eq_none, members_eq]
  simp only [List.forall_mem_map, List.isEmpty_iff, ← Text.allBlank_iff, Bool.not_eq_true]

variable {entities joinTables endpoints} {spaces : Table Namespace}

/-- A list of what is in the namespaces holds all of it once, if it holds in each of them what names
that one. -/
theorem flatMap_perm {α : Type} {items : Table α} (nameSpace : α → String)
    {list : Namespace → List String} {names : String × α → List String}
    (unique : spaces.keys.Nodup) (listed : ∀ item ∈ items, nameSpace item.2 ∈ spaces.keys)
    (holds : ∀ entry ∈ spaces, list entry.2 =
      (items.filter (nameSpace ·.2 = entry.1)).flatMap names) :
    (spaces.flatMap fun entry => list entry.2).Perm (items.flatMap names) := by
  have byName : (spaces.flatMap fun entry => list entry.2) =
      (spaces.keys.flatMap fun name => items.filter (nameSpace ·.2 = name)).flatMap names := by
    rw [Table.keys, List.flatMap_map, List.flatMap_assoc]
    exact List.flatMap_congr holds
  rw [byName]
  exact (flatMap_filter_perm (fun item => nameSpace item.2) unique listed).flatMap_right names

theorem keys_perm {α : Type} {items : Table α} (nameSpace : α → String)
    {list : Namespace → List String} (unique : spaces.keys.Nodup)
    (listed : ∀ item ∈ items, nameSpace item.2 ∈ spaces.keys)
    (holds : ∀ entry ∈ spaces, list entry.2 =
      (items.filter (nameSpace ·.2 = entry.1)).map (·.1)) :
    (spaces.flatMap fun entry => list entry.2).Perm items.keys := by
  rw [Table.keys, List.map_eq_flatMap]
  refine flatMap_perm nameSpace unique listed fun entry member => ?_
  rw [holds entry member, List.map_eq_flatMap]

/-- A name that occurs has something in its namespace. -/
theorem isEmpty_gather {name : String}
    (occurs : name ∈ (members entities joinTables endpoints).map Prod.snd) :
    (gather entities joinTables endpoints name).isEmpty = false := by
  rw [mem_names_iff] at occurs
  have named : ∀ {α : Type} {items : Table α} {nameSpace : α → String} {item : String × α},
      item ∈ items → nameSpace item.2 = name →
        ((items.filter (nameSpace ·.2 = name)).map (·.1)).isEmpty = false := by
    intro α items nameSpace item member same
    rw [List.isEmpty_eq_false_iff_exists_mem]
    exact ⟨_, List.mem_map_of_mem (List.mem_filter.mpr ⟨member, by simpa using same⟩)⟩
  rcases occurs with ⟨entry, member, same⟩ | ⟨entry, member, same⟩ | ⟨entry, member, same⟩
  · simp [isEmpty, gather, named member same]
  · simp [isEmpty, gather, named member same]
  · simp [isEmpty, gather, named member same]

theorem partition_assembled : Partition entities joinTables endpoints
    ((additions entities joinTables endpoints).foldl take []) := by
  have sorted := sorted_assembled entities joinTables endpoints
  have lookup := get?_assembled entities joinTables endpoints
  generalize (additions entities joinTables endpoints).foldl take [] = spaces at sorted lookup
  have occurs : ∀ name, name ∈ spaces.keys ↔
      name ∈ (members entities joinTables endpoints).map Prod.snd := by
    intro name
    rw [Table.mem_keys_iff, lookup, ← exists_addition_iff]
    split <;> simp [*]
  have holds : ∀ entry ∈ spaces, entry.2 = gather entities joinTables endpoints entry.1 := by
    intro entry member
    have found := lookup entry.1
    rw [(Table.get?_eq_some_iff sorted.nodup).mpr member] at found
    split at found
    · exact Option.some.inj found
    · cases found
  have unique := sorted.nodup
  have inEntities : ∀ entry ∈ entities, entry.2.nameSpace ∈ spaces.keys := fun entry member =>
    (occurs _).mpr ((mem_names_iff ..).mpr (Or.inl ⟨entry, member, rfl⟩))
  have inJoinTables : ∀ entry ∈ joinTables, entry.2.nameSpace ∈ spaces.keys := fun entry member =>
    (occurs _).mpr ((mem_names_iff ..).mpr (Or.inr (Or.inl ⟨entry, member, rfl⟩)))
  have inEndpoints : ∀ entry ∈ endpoints, entry.2.nameSpace ∈ spaces.keys := fun entry member =>
    (occurs _).mpr ((mem_names_iff ..).mpr (Or.inr (Or.inr ⟨entry, member, rfl⟩)))
  refine ⟨sorted, occurs, ?_, holds, ?_, ?_, ?_, ?_⟩
  · intro entry member
    rw [holds entry member]
    exact isEmpty_gather ((occurs entry.1).mp (List.mem_map_of_mem member))
  · exact keys_perm Entity.nameSpace unique inEntities fun entry member =>
      congrArg Namespace.entities (holds entry member)
  · exact flatMap_perm Entity.nameSpace unique inEntities fun entry member =>
      congrArg Namespace.relationships (holds entry member)
  · exact keys_perm JoinTable.nameSpace unique inJoinTables fun entry member =>
      congrArg Namespace.joinTables (holds entry member)
  · exact keys_perm Endpoint.nameSpace unique inEndpoints fun entry member =>
      congrArg Namespace.endpoints (holds entry member)

/-- Namespaces that are sorted by name are told by what they hold. -/
theorem Partition.unique {spaces' : Table Namespace}
    (h : Partition entities joinTables endpoints spaces)
    (h' : Partition entities joinTables endpoints spaces') : spaces = spaces' := by
  have keys := Table.keys_eq_of_sorted h.sorted h'.sorted fun name =>
    (h.occurs name).trans (h'.occurs name).symm
  refine Table.eq_of_keys keys h'.sorted.nodup fun entry member => ?_
  have listed : entry.1 ∈ spaces.keys := keys ▸ List.mem_map_of_mem member
  obtain ⟨n, found⟩ := Table.mem_keys_iff.mp listed
  rw [found, h'.holds entry member, ← h.holds _ (Table.mem_of_get?_eq_some found)]

theorem error_of_assemble {fault : Fault}
    (h : assemble entities joinTables endpoints = .error fault) : ∃ owner,
      firstBlank? entities joinTables endpoints = some owner ∧ fault = .missingNamespace owner := by
  rw [assemble_eq] at h
  obtain ⟨before, a, after, split, filled, blank, rfl⟩ := foldlM_change_error h
  refine ⟨a.owner, ?_, rfl⟩
  have passed : (before.map fun a => (a.owner, a.nameSpace)).find? (fun item =>
      (Text.trim item.2.toList).isEmpty) = none := by
    rw [List.find?_eq_none]
    intro item listed
    obtain ⟨b, member, rfl⟩ := List.mem_map.mp listed
    rw [List.isEmpty_iff, ← Text.allBlank_iff, filled b member]
    exact Bool.false_ne_true
  rw [firstBlank?, members_eq, split, List.map_append, List.find?_append, passed, Option.none_or,
    List.map_cons, List.find?_cons_of_pos]
  · rfl
  · rw [List.isEmpty_iff, ← Text.allBlank_iff]
    exact blank

/-- Entities, join tables and endpoints are parted by their namespaces if no namespace is blank, and
otherwise the first item with a blank one is reported. -/
theorem assemble_partitions (entities : Table Entity) (joinTables : Table JoinTable)
    (endpoints : Table Endpoint) :
    (∀ fault, assemble entities joinTables endpoints = .error fault ↔ ∃ owner,
      firstBlank? entities joinTables endpoints = some owner ∧ fault = .missingNamespace owner) ∧
    ∀ spaces, assemble entities joinTables endpoints = .ok spaces ↔
      firstBlank? entities joinTables endpoints = none ∧
      Partition entities joinTables endpoints spaces := by
  have succeeds : ∀ spaces, assemble entities joinTables endpoints = .ok spaces ↔
      firstBlank? entities joinTables endpoints = none ∧
      Partition entities joinTables endpoints spaces := by
    intro spaces
    rw [assemble_eq_ok, firstBlank?_eq_none_iff]
    refine and_congr_right fun _ => ⟨?_, fun parts => parts.unique partition_assembled⟩
    rintro rfl
    exact partition_assembled
  refine ⟨fun fault => ⟨error_of_assemble, ?_⟩, succeeds⟩
  rintro ⟨owner, blank, rfl⟩
  cases run : assemble entities joinTables endpoints with
  | ok spaces =>
    rw [((succeeds spaces).mp run).1] at blank
    cases blank
  | error fault =>
    obtain ⟨other, blank', rfl⟩ := error_of_assemble run
    rw [blank] at blank'
    rw [Option.some.inj blank']

end

end Namespace

end ApiGraph
