import ApiGraph.Proofs.Graph.HandOff

/-! What can be read at all. Whatever a graph is read from, it is lawful, so the lawful graphs are
those that some JSON is read as (`lawful_iff_readable`), and those whose text reads back
(`ofText_text_iff`). -/

namespace ApiGraph

variable {α β : Type}

theorem Table.sorted_sorted (entries : Table α) : Table.Sorted (Table.sorted entries) := by
  have all (t : Table α) (h : Table.Sorted t) : Table.Sorted
      (entries.foldl (fun t entry => Table.insertSorted t entry.1 entry.2) t) := by
    induction entries generalizing t with
    | nil => exact h
    | cons entry rest ih => exact ih _ (sorted_insertSorted h _ _)
  exact all [] List.Pairwise.nil

namespace Json

theorem sorted_of_toSortedTable {read : Json → Except Mismatch α} {j : Json} {t : Table α}
    (h : toSortedTable read j = .ok t) : Table.Sorted t := by
  obtain ⟨entries, _, rfl⟩ := map_eq_ok.mp h
  exact Table.sorted_sorted entries

end Json

open Json

/-! What is read of any JSON is lawful, part by part. -/

theorem Column.lawful_of_ofJson {j : Json} {c : Column} (h : Column.ofJson j = .ok c) :
    c.Lawful := by
  rw [Column.ofJson] at h
  obtain ⟨r, _, h⟩ := bind_eq_ok.mp h
  obtain ⟨type, _, h⟩ := bind_eq_ok.mp h
  obtain ⟨nullable, _, h⟩ := bind_eq_ok.mp h
  obtain ⟨maxLength, read, h⟩ := bind_eq_ok.mp h
  obtain ⟨foreignKey, _, h⟩ := bind_eq_ok.mp h
  obtain ⟨description, _, h⟩ := bind_eq_ok.mp h
  obtain ⟨enumValues, _, h⟩ := bind_eq_ok.mp h
  obtain ⟨pattern, _, h⟩ := bind_eq_ok.mp h
  cases h
  intro n member
  obtain ⟨j, _, read⟩ := exists_of_orNull read n member
  exact lt_of_toNatBelow read

theorem lawfulColumns_of_toTable {j : Json} {t : Table Column}
    (h : toTable Column.ofJson j = .ok t) : LawfulColumns t :=
  ⟨nodup_of_toTable h, forall_of_toTable (fun _ _ => Column.lawful_of_ofJson) h⟩

theorem Entity.lawful_of_ofJson {j : Json} {e : Entity} (h : Entity.ofJson j = .ok e) :
    e.Lawful := by
  rw [Entity.ofJson] at h
  obtain ⟨r, _, h⟩ := bind_eq_ok.mp h
  obtain ⟨name, _, h⟩ := bind_eq_ok.mp h
  obtain ⟨resource, _, h⟩ := bind_eq_ok.mp h
  obtain ⟨nameSpace, _, h⟩ := bind_eq_ok.mp h
  obtain ⟨tableName, _, h⟩ := bind_eq_ok.mp h
  obtain ⟨primaryKey, _, h⟩ := bind_eq_ok.mp h
  obtain ⟨description, _, h⟩ := bind_eq_ok.mp h
  obtain ⟨columns, read, h⟩ := bind_eq_ok.mp h
  obtain ⟨relationships, read', h⟩ := bind_eq_ok.mp h
  cases h
  obtain ⟨_, columns⟩ := Record.required_eq_ok read
  obtain ⟨_, relationships⟩ := Record.required_eq_ok read'
  exact ⟨lawfulColumns_of_toTable columns, nodup_of_toTable relationships⟩

theorem JoinTable.lawful_of_ofJson {j : Json} {t : JoinTable} (h : JoinTable.ofJson j = .ok t) :
    t.Lawful := by
  rw [JoinTable.ofJson] at h
  obtain ⟨r, _, h⟩ := bind_eq_ok.mp h
  obtain ⟨name, _, h⟩ := bind_eq_ok.mp h
  obtain ⟨nameSpace, _, h⟩ := bind_eq_ok.mp h
  obtain ⟨entities, _, h⟩ := bind_eq_ok.mp h
  obtain ⟨columns, read, h⟩ := bind_eq_ok.mp h
  cases h
  obtain ⟨_, columns⟩ := Record.required_eq_ok read
  exact lawfulColumns_of_toTable columns

theorem EndpointMethod.lawful_of_ofJson {j : Json} {m : EndpointMethod}
    (h : EndpointMethod.ofJson j = .ok m) : m.Lawful := by
  rw [EndpointMethod.ofJson] at h
  obtain ⟨r, _, h⟩ := bind_eq_ok.mp h
  obtain ⟨supported, _, h⟩ := bind_eq_ok.mp h
  obtain ⟨request, _, h⟩ := bind_eq_ok.mp h
  obtain ⟨response, read, h⟩ := bind_eq_ok.mp h
  obtain ⟨queryParams, _, h⟩ := bind_eq_ok.mp h
  cases h
  intro answer member
  obtain ⟨j, _, h⟩ := exists_of_orNull read answer member
  rw [EndpointResponse.ofJson] at h
  obtain ⟨r, _, h⟩ := bind_eq_ok.mp h
  obtain ⟨code, read, h⟩ := bind_eq_ok.mp h
  obtain ⟨entity, _, h⟩ := bind_eq_ok.mp h
  cases h
  obtain ⟨_, code⟩ := Record.required_eq_ok read
  exact lt_of_toNatBelow code

theorem EndpointMethod.lawful_of_tableOfEntries {fields : List (String × Json)}
    {methods : List (HttpMethod × EndpointMethod)} (h : tableOfEntries fields = .ok methods) :
    ∀ entry ∈ methods, entry.2.Lawful := by
  induction fields generalizing methods with
  | nil =>
    cases h
    exact nofun
  | cons field rest ih =>
    obtain ⟨key, j⟩ := field
    rw [tableOfEntries] at h
    split at h
    · obtain ⟨method, first, h⟩ := bind_eq_ok.mp h
      obtain ⟨others, later, h⟩ := bind_eq_ok.mp h
      cases h
      intro entry member
      rcases List.mem_cons.mp member with rfl | member
      · exact lawful_of_ofJson first
      · exact ih later entry member
    · cases h

theorem Endpoint.lawful_of_ofJson {j : Json} {e : Endpoint} (h : Endpoint.ofJson j = .ok e) :
    e.Lawful := by
  rw [Endpoint.ofJson] at h
  obtain ⟨r, _, h⟩ := bind_eq_ok.mp h
  obtain ⟨path, _, h⟩ := bind_eq_ok.mp h
  obtain ⟨nameSpace, _, h⟩ := bind_eq_ok.mp h
  obtain ⟨microservice, _, h⟩ := bind_eq_ok.mp h
  obtain ⟨methods, read, h⟩ := bind_eq_ok.mp h
  cases h
  obtain ⟨j, read⟩ := Record.required_eq_ok read
  unfold EndpointMethod.tableOfJson at read
  split at read
  · obtain ⟨entries, each, rfl⟩ := map_eq_ok.mp read
    refine ⟨EndpointMethod.keys_arrange entries ▸ List.filter_sublist, fun entry member => ?_⟩
    exact EndpointMethod.lawful_of_tableOfEntries each entry (EndpointMethod.mem_of_arrange member)
  · cases read

theorem Options.lawful_of_ofJson {j : Json} {o : Options} (h : Options.ofJson j = .ok o) :
    o.Lawful := by
  rw [Options.ofJson] at h
  obtain ⟨r, _, h⟩ := bind_eq_ok.mp h
  obtain ⟨defaultNamespace, _, h⟩ := bind_eq_ok.mp h
  obtain ⟨primaryKey, _, h⟩ := bind_eq_ok.mp h
  obtain ⟨naming, _, h⟩ := bind_eq_ok.mp h
  obtain ⟨tableNames, read, h⟩ := bind_eq_ok.mp h
  obtain ⟨baseClasses, read', h⟩ := bind_eq_ok.mp h
  cases h
  have sorted {key : String} {t : Table String}
      (h : r.orElse key [] (toSortedTable toText) = .ok t) : Table.Sorted t := by
    rcases Record.orElse_eq_ok h with rfl | ⟨j, _, h⟩
    · exact List.Pairwise.nil
    · exact sorted_of_toSortedTable h
  exact ⟨sorted read, sorted read'⟩

namespace Graph

theorem lawful_of_ofJson {j : Json} {g : Graph} (h : Graph.ofJson j = .ok g) : g.Lawful := by
  rw [Graph.ofJson] at h
  obtain ⟨r, _, h⟩ := bind_eq_ok.mp h
  obtain ⟨entities, first, h⟩ := bind_eq_ok.mp h
  obtain ⟨relationships, _, h⟩ := bind_eq_ok.mp h
  obtain ⟨joinTables, second, h⟩ := bind_eq_ok.mp h
  obtain ⟨endpoints, third, h⟩ := bind_eq_ok.mp h
  obtain ⟨namespaces, fourth, h⟩ := bind_eq_ok.mp h
  obtain ⟨servers, _, h⟩ := bind_eq_ok.mp h
  obtain ⟨microservices, _, h⟩ := bind_eq_ok.mp h
  obtain ⟨options, last, h⟩ := bind_eq_ok.mp h
  cases h
  obtain ⟨_, entities⟩ := Record.required_eq_ok first
  obtain ⟨_, joinTables⟩ := Record.required_eq_ok second
  obtain ⟨_, endpoints⟩ := Record.required_eq_ok third
  obtain ⟨_, namespaces⟩ := Record.required_eq_ok fourth
  obtain ⟨_, options⟩ := Record.required_eq_ok last
  exact
    { entities := nodup_of_toTable entities
      entity := forall_of_toTable (fun _ _ => Entity.lawful_of_ofJson) entities
      joinTables := nodup_of_toTable joinTables
      joinTable := forall_of_toTable (fun _ _ => JoinTable.lawful_of_ofJson) joinTables
      endpoints := nodup_of_toTable endpoints
      endpoint := forall_of_toTable (fun _ _ => Endpoint.lawful_of_ofJson) endpoints
      namespaces := sorted_of_toSortedTable namespaces
      options := Options.lawful_of_ofJson options }

theorem lawful_iff_readable {g : Graph} : g.Lawful ↔ ∃ j, Graph.ofJson j = .ok g :=
  ⟨fun h => ⟨_, ofJson_toJson h⟩, fun ⟨_, h⟩ => lawful_of_ofJson h⟩

theorem ofText_text_iff {g : Graph} : ofText g.text = .ok g ↔ g.Lawful := by
  refine ⟨fun h => ?_, fun h => (ofText_text h).1⟩
  rw [ofText] at h
  split at h
  · exact lawful_of_ofJson h
  · cases h

end Graph

end ApiGraph
