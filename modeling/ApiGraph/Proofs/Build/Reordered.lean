import ApiGraph.Proofs.Build.Order
import ApiGraph.Proofs.Endpoint.Collect
import ApiGraph.Proofs.OpenApi.Fields
import ApiGraph.Proofs.Resolver.Reordered

/-! The graph of a document does not depend on the order of its definitions. All parts of a build
read a document by names, or go over its definitions; what they make of definitions in another
order is the same graph (`graph_same_order`). If the members of every `allOf` are definitions by
name, the document may stand among other files as well (`graph_reordered_named`). -/

namespace ApiGraph.Build

open Merge (withDefinitions definitionsOf)
open Resolver (outcomeOf)

variable {files files' : FileTree} {document : Json} {path : Option Path} {schemas : Table Json}
  {definitions : Table Schema}

/-- A reference to a definition of the document in scope leads to it. -/
theorem outcomeOf_definitionRef {scope : Scope} {name : String} {node : Json}
    (clean : EndsClean name) (found : (definitionsOf scope.document).get? name = some node)
    (proper : aliasTarget? node = none) :
    ∃ t, outcomeOf files scope (definitionRef name) = .ok t ∧ t.node = node := by
  obtain ⟨t, first, rfl, _, _⟩ := @Resolver.target_inFile files scope _ _ scope.baseDir
    (Merge.lookup_definition found)
  refine ⟨t, ?_, rfl⟩
  rw [outcomeOf, ofText_definitionRef clean, ok_bind]
  exact Resolver.outcome_of_target first proper

/-- No definition that passes the checks is a reference itself. -/
theorem proper_of_checkDefinitions (read : Description.definitions ⟨document, path⟩ = .ok definitions)
    (checked : checkDefinitions definitions = .ok ()) {name : String} {node : Json}
    (found : (definitionsOf document).get? name = some node) : aliasTarget? node = none := by
  have same := Description.rel_definitions read name
  rw [found] at same
  generalize known : definitions.get? name = schema at same
  cases same with
  | some isSchema =>
    exact Schema.aliasTarget?_eq_none isSchema
      (ref_of_checkDefinitions checked (Table.mem_of_get?_eq_some known))

/-- What is referred to by the members of an `allOf`: definitions by name, and nothing else. -/
def MembersNamed (document : Json) (definitions : Table Schema) : Prop :=
  ∀ m ∈ members definitions, ∀ ref, m.member.ref = some ref →
    ∃ name ∈ (definitionsOf document).keys, EndsClean name ∧ ref = definitionRef name

/-- The members of an `allOf` are the same among definitions in another order. -/
theorem memberSchema_reordered (perm : schemas.Perm (definitionsOf document))
    (unique : (definitionsOf document).keys.Nodup)
    (proper : ∀ name node, (definitionsOf document).get? name = some node →
      aliasTarget? node = none)
    (named : MembersNamed document definitions) (path' : Option Path)
    (definitions' : Table Schema) (options : Options) :
    ∀ m ∈ members definitions,
      Gives (memberSchema files ⟨⟨document, path⟩, definitions, options⟩ m.member)
        (memberSchema files' ⟨⟨withDefinitions (fun _ => schemas) document, path'⟩, definitions',
          options⟩ m.member) := by
  intro m isMember
  rw [memberSchema, memberSchema]
  cases isRef : m.member.ref with
  | none => exact Gives.refl _
  | some ref =>
    obtain ⟨name, defined, clean, rfl⟩ := named m isMember ref isRef
    obtain ⟨node, found⟩ := Table.mem_keys_iff.mp defined
    have found' : (definitionsOf (withDefinitions (fun _ => schemas) document)).get? name =
        some node := by
      rcases Merge.hasTable_or_unchanged document with ⟨top, components, old, table⟩ | ⟨_, none⟩
      · rw [Merge.withDefinitions_eq table, (Merge.hasTable_relaid _ _ _).definitions,
          ← Table.get?_eq_of_perm unique perm.symm, found]
      · rw [none] at found
        cases found
    obtain ⟨t, leads, rfl⟩ := @outcomeOf_definitionRef files
      (Source.scope ⟨⟨document, path⟩, definitions, options⟩) _ _ clean found
      (proper name node found)
    obtain ⟨t', leads', same⟩ := @outcomeOf_definitionRef files'
      (Source.scope ⟨⟨withDefinitions (fun _ => schemas) document, path'⟩, definitions',
        options⟩) _ _ clean found' (proper name _ found)
    intro schema read
    simp only [leads, leads', ok_bind, same] at read ⊢
    cases isSchema : Schema.ofJson t.node with
    | error mismatch =>
      rw [isSchema] at read
      cases read
    | ok target =>
      rw [isSchema] at read
      exact read

/-- Every definition has a label and every many-to-many pair a join table of its own, and members
of an `allOf` refer to definitions by name. -/
structure Distinct (document : Json) (definitions : Table Schema) : Prop where
  labels : (definitions.keys.map Naming.flat).Nodup
  apart : JoinsApart definitions
  named : MembersNamed document definitions

/-- No definition of a description that compiles is a reference itself. -/
theorem proper_of_graph {options : Options} {g : Graph}
    (read : Description.definitions ⟨document, path⟩ = .ok definitions)
    (unique : definitions.keys.Nodup)
    (built : graph files ⟨document, path⟩ options = .ok g) (name : String) (node : Json)
    (found : (definitionsOf document).get? name = some node) : aliasTarget? node = none := by
  obtain ⟨definitions', s, read', tabled, _⟩ := graph_eq_ok built
  rw [read] at read'
  obtain rfl := Except.ok.inj read'
  exact proper_of_checkDefinitions read (tables_eq_ok unique tabled).1 found

/-- The graph of a document is that of the document with its definitions in another order, if the
members of every `allOf` stay what they are. -/
theorem graph_reordered {options : Options} {g : Graph}
    (perm : schemas.Perm (definitionsOf document))
    (read : Description.definitions ⟨document, path⟩ = .ok definitions)
    (labels : (definitions.keys.map Naming.flat).Nodup) (apart : JoinsApart definitions)
    {path' : Option Path} (sameMembers : ∀ definitions', ∀ m ∈ members definitions,
      Gives (memberSchema files ⟨⟨document, path⟩, definitions, options⟩ m.member)
        (memberSchema files' ⟨⟨withDefinitions (fun _ => schemas) document, path'⟩, definitions',
          options⟩ m.member))
    (built : graph files ⟨document, path⟩ options = .ok g) :
    ∃ g', graph files' ⟨withDefinitions (fun _ => schemas) document, path'⟩ options = .ok g' ∧
      g.Same g' := by
  have keys := Description.keys_definitions read
  have unique : definitions.keys.Nodup := .of_map _ labels
  have uniqueNodes : (definitionsOf document).keys.Nodup := keys ▸ unique
  obtain ⟨version, servers, paths⟩ :=
    Description.besides_definitions (fun _ => schemas) document path path'
  obtain ⟨definitions', s, steps⟩ := steps_of_graph built
  obtain rfl := Except.ok.inj (read.symm.trans steps.read)
  obtain ⟨definitions', read', permuted⟩ := Description.definitions_reordered perm read path'
  have reordered : Source.Reordered ⟨⟨document, path⟩, definitions, options⟩
      ⟨⟨withDefinitions (fun _ => schemas) document, path'⟩, definitions', options⟩ :=
    ⟨permuted, unique, rfl⟩
  obtain ⟨s', tabled', sameEntities, sameJoinTables, entityKeys, uniqueJoinTables⟩ :=
    @tables_reordered files files' _ _ reordered labels apart (sameMembers definitions') s
      steps.tabled
  have uniqueEntities : s.entities.keys.Nodup := by
    rw [entityKeys]
    exact unique
  obtain ⟨namespaces', assembled', sameNames, sameNamespaces⟩ := Namespace.assemble_same
    sameEntities uniqueEntities sameJoinTables uniqueJoinTables steps.assembled
  have known : ∀ name, s'.entities.contains name = s.entities.contains name := by
    intro name
    rw [Bool.eq_iff_iff, Table.contains_iff, Table.contains_iff, sameEntities.keys.mem_iff]
  have collected' := Endpoint.collect_reordered perm uniqueNodes known path path' g.servers options
    g.endpoints steps.collected
  have serving' : Endpoint.microservices ⟨withDefinitions (fun _ => schemas) document, path'⟩
      g.servers = .ok g.microservices := by
    rw [Endpoint.microservices, paths]
    exact steps.serving
  refine ⟨⟨s'.entities, Graph.relationshipsOf s'.entities, s'.joinTables, g.endpoints, namespaces',
    g.servers, g.microservices, options⟩, Steps.graph_eq
      ⟨(checkVersion_congr version).trans steps.version, read', tabled',
        servers.trans steps.served, collected', serving', assembled', rfl, rfl, rfl, rfl⟩, ?_⟩
  exact {
    entities := steps.entities ▸ sameEntities
    relationships := by
      rw [steps.relationships]
      exact Graph.relationshipsOf_perm sameEntities uniqueEntities
    joinTables := steps.joinTables ▸ sameJoinTables
    endpoints := rfl
    namespaceNames := sameNames
    namespaces := sameNamespaces
    servers := rfl
    microservices := rfl
    options := steps.options }

/-- If members refer to definitions by name, the graph does not depend on other files either. -/
theorem graph_reordered_named {options : Options} {g : Graph}
    (perm : schemas.Perm (definitionsOf document))
    (read : Description.definitions ⟨document, path⟩ = .ok definitions)
    (distinct : Distinct document definitions)
    (built : graph files ⟨document, path⟩ options = .ok g) (path' : Option Path) :
    ∃ g', graph files' ⟨withDefinitions (fun _ => schemas) document, path'⟩ options = .ok g' ∧
      g.Same g' := by
  have unique : definitions.keys.Nodup := .of_map _ distinct.labels
  have proper := proper_of_graph read unique built
  rw [Description.keys_definitions read] at unique
  apply graph_reordered perm read distinct.labels distinct.apart _ built
  intro definitions'
  exact memberSchema_reordered perm unique proper distinct.named path' definitions' options

/-! The same files. -/

/-- A member that is a reference leads to the same schema, whatever the order of definitions. -/
theorem memberSchema_same_order (perm : schemas.Perm (definitionsOf document))
    (unique : (definitionsOf document).keys.Nodup) (definitions definitions' : Table Schema)
    (options : Options) (member : Schema) :
    Gives (memberSchema files ⟨⟨document, path⟩, definitions, options⟩ member)
      (memberSchema files ⟨⟨withDefinitions (fun _ => schemas) document, path⟩, definitions',
        options⟩ member) := by
  rw [memberSchema, memberSchema]
  cases member.ref with
  | none => exact Gives.refl _
  | some ref =>
    intro schema read
    obtain ⟨t, leads, read⟩ := bind_eq_ok.mp read
    obtain ⟨t', leads', same⟩ := @Resolver.outcomeOf_reordered files
      (Source.scope ⟨⟨document, path⟩, definitions, options⟩)
      (Source.scope ⟨⟨withDefinitions (fun _ => schemas) document, path⟩, definitions', options⟩)
      schemas perm unique rfl rfl rfl _ _ leads
    have name : t'.name = t.name := by rw [same.besides]
    refine bind_eq_ok.mpr ⟨t', leads', ?_⟩
    rw [name]
    exact (Schema.ofJson_reordered same.node).mapError _ schema read

/-- A graph has the definitions as its entities, and one join table of a name. -/
theorem keys_graph {options : Options} {g : Graph}
    (built : graph files ⟨document, path⟩ options = .ok g)
    (unique : (definitionsOf document).keys.Nodup) :
    g.entities.keys = (definitionsOf document).keys ∧ g.joinTables.keys.Nodup := by
  obtain ⟨definitions, s, read, tabled, entities, joinTables⟩ := graph_eq_ok built
  have keys := Description.keys_definitions read
  rw [← keys] at unique ⊢
  obtain ⟨_, xs, _, boundEntities, boundJoinTables⟩ := tables_eq_ok unique tabled
  rw [entities, joinTables, boundEntities, boundJoinTables, keys_entities_bound]
  exact ⟨rfl, keys_joinTables_bound_nodup⟩

/-- A document that compiles does so with its definitions in another order. -/
theorem exists_same_order {options : Options} {g : Graph}
    (perm : schemas.Perm (definitionsOf document))
    (labels : ((definitionsOf document).keys.map Naming.flat).Nodup)
    (apart : ∀ definitions, Description.definitions ⟨document, path⟩ = .ok definitions →
      JoinsApart definitions)
    (built : graph files ⟨document, path⟩ options = .ok g) :
    ∃ g', graph files ⟨withDefinitions (fun _ => schemas) document, path⟩ options = .ok g' ∧
      g.Same g' := by
  obtain ⟨definitions, _, read, _⟩ := graph_eq_ok built
  have unique : (definitionsOf document).keys.Nodup := .of_map _ labels
  refine graph_reordered perm read ?_ (apart definitions read) ?_ built
  · rw [Description.keys_definitions read]
    exact labels
  · exact fun definitions' m _ =>
      memberSchema_same_order perm unique definitions definitions' options m.member

/-- With one label for a definition and one join table for a many-to-many pair, the order of the
definitions decides neither whether a document compiles nor to what graph, except for the order of
the entries that follow the definitions. -/
theorem graph_same_order {options : Options} (perm : schemas.Perm (definitionsOf document))
    (labels : ((definitionsOf document).keys.map Naming.flat).Nodup)
    (apart : ∀ definitions, Description.definitions ⟨document, path⟩ = .ok definitions →
      JoinsApart definitions) :
    ((∃ g, graph files ⟨document, path⟩ options = .ok g) ↔
      ∃ g', graph files ⟨withDefinitions (fun _ => schemas) document, path⟩ options = .ok g') ∧
    ∀ g g', graph files ⟨document, path⟩ options = .ok g →
      graph files ⟨withDefinitions (fun _ => schemas) document, path⟩ options = .ok g' →
      g.Same g' ∧ g.foreignKeys.Perm g'.foreignKeys := by
  have unique : (definitionsOf document).keys.Nodup := .of_map _ labels
  have inOrder := Merge.definitionsOf_reordered perm
  refine ⟨⟨?_, ?_⟩, ?_⟩
  · rintro ⟨g, built⟩
    obtain ⟨g', built', _⟩ := exists_same_order perm labels apart built
    exact ⟨g', built'⟩
  · -- The definitions are put back in their order.
    rintro ⟨g', built'⟩
    have back : (definitionsOf document).Perm
        (definitionsOf (withDefinitions (fun _ => schemas) document)) := by
      rw [inOrder]
      exact perm.symm
    have labels' : ((definitionsOf (withDefinitions (fun _ => schemas) document)).keys.map
        Naming.flat).Nodup := ((back.map Prod.fst).map Naming.flat).nodup_iff.mp labels
    have apart' : ∀ definitions', Description.definitions
        ⟨withDefinitions (fun _ => schemas) document, path⟩ = .ok definitions' →
          JoinsApart definitions' := by
      intro definitions' read'
      obtain ⟨definitions, read, permuted⟩ := Description.definitions_reordered back read' path
      rw [Merge.withDefinitions_undo] at read
      apply (apart definitions read).perm permuted.symm
      rw [Description.keys_definitions read]
      exact unique
    obtain ⟨g, built, _⟩ := exists_same_order back labels' apart' built'
    rw [Merge.withDefinitions_undo] at built
    exact ⟨g, built⟩
  · intro g g' built built'
    obtain ⟨g'', built'', same⟩ := exists_same_order perm labels apart built
    rw [built'] at built''
    obtain rfl := Except.ok.inj built''
    obtain ⟨entityKeys, uniqueJoinTables⟩ := keys_graph built unique
    refine ⟨same, Graph.foreignKeys_perm same ?_ uniqueJoinTables⟩
    rw [entityKeys]
    exact unique

/-- The blog with its definitions in reverse order. -/
def reversedBlog : Description where
  document := withDefinitions (fun _ => (definitionsOf blog.document).reverse) blog.document

/-- The blog compiles in both orders, to the same graph. -/
theorem blog_same_order : ∃ g g', graph {} blog {} = .ok g ∧
    graph {} reversedBlog {} = .ok g' ∧ g.Same g' ∧ g.foreignKeys.Perm g'.foreignKeys := by
  have run : (graph {} blog {}).toOption.map (fun g => g.entities.keys) =
      some ["Post", "Author", "Tag"] := by
    decide +kernel
  have labelled : (definitionsOf blog.document).keys.map (fun name => (name, Naming.flat name)) =
      [("Post", "post"), ("Author", "author"), ("Tag", "tag")] := by
    decide +kernel
  have apart : ∀ definitions, blog.definitions = .ok definitions → JoinsApart definitions := by
    intro definitions read
    rw [← Description.keys_definitions read] at labelled
    exact joinsApart_of_labels labelled (by decide +kernel)
  obtain ⟨g, built, _⟩ := exists_ok_of_map run
  obtain ⟨compiles, same⟩ := @graph_same_order {} blog.document none _ {} (List.reverse_perm _)
    (by decide +kernel) apart
  obtain ⟨g', built'⟩ := compiles.mp ⟨g, built⟩
  exact ⟨g, g', built, built', same g g' built built'⟩

end ApiGraph.Build
