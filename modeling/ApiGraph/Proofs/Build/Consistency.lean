import ApiGraph.Proofs.Build.Links
import ApiGraph.Proofs.Endpoint.Bodies
import ApiGraph.Proofs.OpenApi.Description

/-! The parts of a graph fit each other. Its entities are the definitions in their order, the list
of its relationships holds those of every entity once, and each relationship leads to an entity and
is made as its cardinality says (`Fitting`). What a body of an endpoint refers to is an entity.
Every graph that is built is consistent in this sense (`consistent`). -/

namespace ApiGraph.Build

variable {files : FileTree} {source : Source} {definitions : Table Schema} {xs : List Effect}

/-- A relationship of an entity, as its cardinality says. -/
structure Fitting (g : Graph) (e : Entity) (r : Relationship) : Prop where
  target : r.target ∈ g.entities.keys
  usesList : r.usesList = true ↔
    r.cardinality = .toMany ∨ r.cardinality = .oneToMany ∨ r.cardinality = .manyToMany
  joins : r.joinTable.isSome = true ↔ r.cardinality = .manyToMany
  joinTable : ∀ table ∈ r.joinTable, table ∈ g.joinTables.keys
  backReference : r.cardinality = .oneToOne ∨ r.cardinality = .oneToMany →
    r.backReference = some e.label
  label : ∀ name ∈ r.backReference, name = e.label

structure Consistent (d : Description) (g : Graph) : Prop where
  /-- The entities are the definitions, in the order of the document. -/
  entities : ∃ table, d.definitionTable = .ok table ∧ g.entities.keys = table.keys
  names : ∀ entry ∈ g.entities, entry.2.name = entry.1
  fitting : ∀ entry ∈ g.entities, ∀ r ∈ entry.2.relationships.values, Fitting g entry.2 r
  /-- The relationships of all entities stand in one list, in the order of the entities. -/
  listed : g.relationships = g.entities.flatMap fun (name, e) =>
    e.relationships.map fun (key, r) => ⟨name, key, r⟩
  once : (g.relationships.map fun entry => (entry.source, entry.name)).Nodup
  bodies : ∃ paths, d.paths = .ok paths ∧ ∀ path e, (path, e) ∈ g.endpoints →
    ∃ item, (path, item) ∈ paths ∧ ∀ entry ∈ e.methods,
      entry.2 = {} ∨ Endpoint.OffersAt d.document g.entities path item entry

theorem isMany_iff (l : Link) : l.forward.isMany = true ↔
    l.cardinality = .toMany ∨ l.cardinality = .oneToMany ∨ l.cardinality = .manyToMany := by
  rw [Link.cardinality, inferCardinality]
  generalize (backReference? l.source l.target l.targetSchema l.site.origin).map
    BackReference.multiplicity = back
  cases l.forward with
  | one => rcases back with _ | _ | _ <;> decide
  | many => rcases back with _ | _ | _ <;> decide

namespace Made

variable {g : Graph}

theorem name_eq (made : Made files source xs g) {name : String} {e : Entity}
    (there : g.entities.get? name = some e) : e.name = name := by
  have bare := bare_entities made.does name
  rw [← made.entities, there, Option.map_some] at bare
  obtain ⟨schema, _, isMade⟩ := Option.map_eq_some_iff.mp bare.symm
  exact (congrArg Entity.name isMade).symm

/-- Every relationship that a link adds is one as its cardinality says. -/
theorem fitting (made : Made files source xs g) {name : String} {e : Entity}
    (there : g.entities.get? name = some e) {key : String} {r : Relationship}
    (member : (key, r) ∈ e.relationships) : Fitting g e r := by
  obtain ⟨l, lasts, isSource, _, rfl⟩ := (made.mem_relationships_iff there).mp member
  obtain ⟨before, after, split, _⟩ := lasts
  have isAdded : l ∈ addedTo source l.source := by simp [split]
  have isLink := (mem_addedTo.mp isAdded).1
  have label : Naming.flat l.source = e.label := by
    rw [Entity.label, made.name_eq there, isSource]
  refine ⟨?_, isMany_iff l, ?_, ?_, ?_, ?_⟩
  · rw [made.entities, keys_entities_bound]
    exact List.mem_map_of_mem (made.target_of_mem isLink)
  · simp [Link.added]
  · intro table named
    obtain ⟨many, rfl⟩ : l.cardinality = .manyToMany ∧ tableName l.source l.target = table := by
      simpa [Link.added] using named
    have isOf := (mem_links_iff_isOf made.checked).mp isLink
    obtain ⟨t, _, _, found, _⟩ := made.exists_joinTable ⟨isOf, many, rfl⟩
    exact Table.mem_keys_of_get? found
  · intro cardinality
    rw [Link.added] at cardinality ⊢
    rw [if_pos (Or.inr cardinality), label]
  · intro name named
    rw [Link.added] at named
    split at named
    · rw [← Option.some.inj named, label]
    · cases named

/-- The list of all relationships has each relationship under the name of its entity. -/
theorem relationships_listed (made : Made files source xs g) :
    g.relationships = g.entities.flatMap fun (name, e) =>
      e.relationships.map fun (key, r) => ⟨name, key, r⟩ := by
  rw [made.relationships, Graph.relationshipsOf, Table.values, List.flatMap_map]
  refine List.flatMap_congr fun entry member => ?_
  have there := (Table.get?_eq_some_iff made.entities_nodup).mpr member
  rw [made.name_eq there]

theorem relationships_nodup (made : Made files source xs g) {name : String} {e : Entity}
    (there : g.entities.get? name = some e) : e.relationships.keys.Nodup := by
  rw [made.relationships_eq there]
  exact Table.keys_ofList_nodup _

theorem relationships_once (made : Made files source xs g) :
    (g.relationships.map fun entry => (entry.source, entry.name)).Nodup := by
  rw [made.relationships_listed, List.map_flatMap]
  refine List.nodup_flatMap.mpr ⟨?_, ?_⟩
  · intro entry member
    have there := (Table.get?_eq_some_iff made.entities_nodup).mpr member
    have unique := made.relationships_nodup there
    have pairs := unique.map (fun _ _ same => (Prod.mk.inj same).2 : (entry.1, ·).Injective)
    rw [Table.keys, List.map_map] at pairs
    rw [List.map_map]
    exact pairs
  · refine (List.pairwise_map.mp made.entities_nodup).imp fun {a b} apart => ?_
    intro pair first second
    simp only [List.map_map, List.mem_map] at first second
    obtain ⟨_, _, rfl⟩ := first
    obtain ⟨_, _, same⟩ := second
    exact apart (Prod.mk.inj same).1.symm

end Made

/-- Every graph that is built of definitions is consistent. -/
theorem consistent {d : Description} {options : Options} {g : Graph}
    (built : graph files d options = .ok g) (read : d.definitions = .ok definitions)
    (unique : definitions.keys.Nodup) : Consistent d g := by
  obtain ⟨xs, made⟩ := @exists_made files _ _ _ _ built read unique
  obtain ⟨_, s, steps⟩ := steps_of_graph built
  have there {entry : String × Entity} (member : entry ∈ g.entities) :=
    (Table.get?_eq_some_iff made.entities_nodup).mpr member
  refine ⟨?_, fun entry member => made.name_eq (there member), ?_, made.relationships_listed,
    made.relationships_once, ?_⟩
  · obtain ⟨table, isTable, _⟩ := bind_eq_ok.mp read
    refine ⟨table, isTable, ?_⟩
    rw [made.entities, keys_entities_bound, Description.definitionTable_eq_ok isTable]
    exact Description.keys_definitions read
  · intro entry member r isRelationship
    obtain ⟨⟨key, _⟩, isEntry, rfl⟩ := List.mem_map.mp isRelationship
    exact made.fitting (there member) isEntry
  · rw [steps.entities]
    exact Endpoint.offers_of_collect steps.collected

private def single (name : String) : Json :=
  .object [("$ref", .string ("#/components/schemas/" ++ name))]

private def listing (name : String) : Json :=
  .object [("type", .string "array"), ("items", single name)]

private def inJson (schema : Json) : Json :=
  .object [("content", .object [("application/json", .object [("schema", schema)])])]

/-- Orders of items by customers, each of whom holds one card, and a path on which orders are listed
and placed. -/
def market : Description where
  document := .object [("openapi", .string "3.0.0"),
    ("paths", .object [("/orders", .object [
      ("get", .object [("responses", .object [("200", inJson (listing "Order"))])]),
      ("post", .object [("requestBody", inJson (single "Order")),
        ("responses", .object [("204", .object [("description", .string "placed")])])])])]),
    ("components", .object [("schemas", .object [
      ("Order", .object [("properties", .object [("items", listing "Item"),
        ("customer", single "Customer")])]),
      ("Item", .object [("properties", .object [("orders", listing "Order")])]),
      ("Customer", .object [("properties", .object [("orders", listing "Order"),
        ("card", single "Card")])]),
      ("Card", .object [("properties", .object [("owner", single "Customer")])])])])]

/-- Orders and items share one join table, customers and cards have each other, and who an order is
from is told by the orders of the customer. -/
theorem market_consistent : ∃ g definitions, graph {} market {} = .ok g ∧
    market.definitions = .ok definitions ∧ definitions.keys = ["Order", "Item", "Customer", "Card"] ∧
    g.relationships = [
      ⟨"Order", "items", ⟨"Item", .manyToMany, none, true, some "itemorder"⟩⟩,
      ⟨"Item", "orders", ⟨"Order", .manyToMany, none, true, some "itemorder"⟩⟩,
      ⟨"Customer", "orders", ⟨"Order", .oneToMany, some "customer", true, none⟩⟩,
      ⟨"Customer", "card", ⟨"Card", .oneToOne, some "customer", false, none⟩⟩,
      ⟨"Card", "owner", ⟨"Customer", .oneToOne, some "card", false, none⟩⟩] ∧
    Consistent market g := by
  have run : (graph {} market {}).toOption.map Graph.relationships = some [
      ⟨"Order", "items", ⟨"Item", .manyToMany, none, true, some "itemorder"⟩⟩,
      ⟨"Item", "orders", ⟨"Order", .manyToMany, none, true, some "itemorder"⟩⟩,
      ⟨"Customer", "orders", ⟨"Order", .oneToMany, some "customer", true, none⟩⟩,
      ⟨"Customer", "card", ⟨"Card", .oneToOne, some "customer", false, none⟩⟩,
      ⟨"Card", "owner", ⟨"Customer", .oneToOne, some "card", false, none⟩⟩] := by
    decide +kernel
  have read : market.definitions.toOption.map Table.keys =
      some ["Order", "Item", "Customer", "Card"] := by
    decide +kernel
  obtain ⟨g, built, relationships⟩ := exists_ok_of_map run
  obtain ⟨definitions, defined, keys⟩ := exists_ok_of_map read
  have unique : definitions.keys.Nodup := by
    rw [keys]
    decide
  exact ⟨g, definitions, built, defined, keys, relationships, consistent built defined unique⟩

end ApiGraph.Build
