import ApiGraph.Proofs.Build.Links
import ApiGraph.Proofs.Build.Parts
import ApiGraph.Proofs.Build.Spared
import ApiGraph.Proofs.Resolver.Parts

/-! Definitions that do not refer to each other are built independently. A document with the entries
of two tables of definitions compiles exactly if it does with each of them alone, and what comes of
both together is what comes of each, if no reference leads from one table into the other and no two
many-to-many links of the one and the other ask for join tables of one name
(`graph_union`). -/

namespace ApiGraph.Build

open Merge (withDefinitions definitionsOf)
open Resolver (Avoids Visits outcomeOf)

variable {files : FileTree} {document : Json} {path : Option Path} {definitions : Table Schema}
  {options : Options}

/-! References from one table into another. -/

/-- The reference strings that a build reads, each with the definition in which it stands. -/
def refsIn (definitions : Table Schema) : List (String × String) :=
  ((alternatives definitions).filter (·.schema.primitive.isNone)).filterMap
    (fun a => a.mention?.map fun m => (m.source, m.ref)) ++
  (mentions definitions).map (fun m => (m.source, m.ref)) ++
  (members definitions).filterMap fun m => m.member.ref.map (m.name, ·)

theorem mem_refsIn_of_placed {m : Mention} (h : IsPlaced definitions m) :
    (m.source, m.ref) ∈ refsIn definitions := by
  rw [refsIn, List.mem_append, List.mem_append, List.mem_filterMap]
  rcases h with ⟨a, isAlternative, notPrimitive, mention⟩ | isMention
  · refine Or.inl (Or.inl ⟨a, List.mem_filter.mpr ⟨isAlternative, ?_⟩, ?_⟩)
    · rw [notPrimitive]
      rfl
    · rw [mention]
      rfl
  · exact Or.inl (Or.inr (List.mem_map_of_mem isMention))

theorem mem_refsIn_of_member {m : Member} (h : m ∈ members definitions) {ref : String}
    (refers : m.member.ref = some ref) : (m.name, ref) ∈ refsIn definitions := by
  rw [refsIn, List.mem_append]
  exact Or.inr (List.mem_filterMap.mpr ⟨m, h, by rw [refers]; rfl⟩)

/-- A reference string that leads to the named definitions: it is the name of one of them, or it
comes to a place of theirs when it is followed. -/
def LeadsInto (files : FileTree) (scope : Scope) (names : List String) (raw : String) : Prop :=
  (∃ name ∈ names, definitionName? raw = some name) ∨
    ∃ ref place, Reference.ofText raw = .ok ref ∧
      Visits files scope ⟨scope.file, scope.baseDir⟩ ref place ∧ place.Touches names

/-- No reference leads from one of the first definitions to the second ones. -/
def Unrelated (files : FileTree) (source : Source) (first second : List String) : Prop :=
  ∀ entry ∈ refsIn source.definitions, entry.1 ∈ first →
    ¬ LeadsInto files source.scope second entry.2

/-- The first and the second definitions do not refer to each other, and their many-to-many links
have different join tables. -/
structure Independent (files : FileTree) (source : Source) (first second : List String) : Prop where
  forward : Unrelated files source first second
  backward : Unrelated files source second first
  tables : ∀ l ∈ links source, ∀ l' ∈ links source, l.source ∈ first → l'.source ∈ second →
    l.cardinality = .manyToMany → l'.cardinality = .manyToMany →
      tableName l.source l.target ≠ tableName l'.source l'.target

theorem Independent.symm {source : Source} {first second : List String}
    (h : Independent files source first second) : Independent files source second first where
  forward := h.backward
  backward := h.forward
  tables l isLink l' isLink' isSecond isFirst many many' same :=
    h.tables l' isLink' l isLink isFirst isSecond many' many same.symm

theorem avoids_of_not_leadsInto {scope : Scope} {names : List String} {raw : String}
    (h : ¬ LeadsInto files scope names raw) (ref : Reference)
    (read : Reference.ofText raw = .ok ref) :
    Avoids files scope names ⟨scope.file, scope.baseDir⟩ ref where
  written := Reference.fragment_written read
  untouched place visits touches := h (Or.inr ⟨ref, place, read, visits, touches⟩)

/-- A reference to a definition by its name leads to no other definition. -/
theorem not_leadsInto_definitionRef {scope : Scope} {names : List String} {name : String}
    {node : Json} (filled : name ≠ "") (clean : EndsClean name)
    (found : (definitionsOf scope.document).get? name = some node)
    (proper : aliasTarget? node = none) (outside : name ∉ names) :
    ¬ LeadsInto files scope names (definitionRef name) := by
  rintro (⟨other, isOther, named⟩ | ⟨ref, place, read, visits, touches⟩)
  · rw [definitionName?_definitionRef filled] at named
    exact outside (Option.some.inj named ▸ isOther)
  · rw [ofText_definitionRef clean] at read
    obtain rfl := Except.ok.inj read
    cases visits with
    | here found inside =>
      rw [Fragment.Touches, Reference.fragment, keys_definitionFragment] at touches
      rcases touches with ⟨other, isOther, way⟩ | ⟨isTable, _⟩
      · have same : other = name := by simpa using way
        exact outside (same ▸ isOther)
      · simp at isTable
    | onward steps leads =>
      obtain ⟨t, first, isNode, _, _⟩ := @Resolver.target_inFile files scope _ _ scope.baseDir
        (Merge.lookup_definition found)
      obtain rfl := Except.ok.inj (first.symm.trans steps)
      rw [isNode, proper] at leads
      cases leads

/-- Definitions that refer to one another by their names do not refer to other ones. -/
theorem unrelated_of_named {source : Source} {first second : List String}
    (named : ∀ entry ∈ refsIn source.definitions, entry.1 ∈ first →
      ∃ name ∈ first, entry.2 = definitionRef name)
    (proper : ∀ name ∈ first, name ≠ "" ∧ EndsClean name ∧
      ((definitionsOf source.scope.document).get? name).map aliasTarget? = some none)
    (apart : ∀ name ∈ first, name ∉ second) : Unrelated files source first second := by
  intro entry isRef isFirst
  obtain ⟨name, isName, same⟩ := named entry isRef isFirst
  obtain ⟨filled, clean, stands⟩ := proper name isName
  obtain ⟨node, found, isProper⟩ := Option.map_eq_some_iff.mp stands
  rw [same]
  exact not_leadsInto_definitionRef filled clean found isProper (apart name isName)

/-! The two parts. -/

theorem memberSchema_part_iff {mine : String → Bool} {names : List String}
    (left : ∀ name ∈ (definitionsOf document).keys, name ∉ names → mine name = true)
    {member : Schema} (unrelated : ∀ ref, member.ref = some ref →
      ¬ LeadsInto files (Source.scope ⟨⟨document, path⟩, definitions, options⟩) names ref)
    (definitions' : Table Schema) (schema : Schema) :
    memberSchema files ⟨⟨withDefinitions (·.filter fun entry => mine entry.1) document, path⟩,
        definitions', options⟩ member = .ok schema ↔
      memberSchema files ⟨⟨document, path⟩, definitions, options⟩ member = .ok schema := by
  have parted : Scope.Part mine (Source.scope ⟨⟨document, path⟩, definitions, options⟩)
      (Source.scope ⟨⟨withDefinitions (·.filter fun entry => mine entry.1) document, path⟩,
        definitions', options⟩) := ⟨rfl, rfl, rfl⟩
  apply memberSchema_alike_iff (Resolver.alike_part parted left)
  exact fun raw ref isRef read => (avoids_of_not_leadsInto (unrelated raw isRef) ref read).shuns

theorem mem_keys_of_placed {m : Mention} (h : IsPlaced definitions m) :
    m.source ∈ definitions.keys := by
  rcases h with ⟨a, isAlternative, _, mention⟩ | isMention
  · obtain ⟨_, _, rfl⟩ := Option.map_eq_some_iff.mp mention
    exact source_of_mem_alternatives isAlternative
  · obtain ⟨definition, defined, found⟩ := List.mem_flatMap.mp isMention
    rw [source_of_mention found]
    exact List.mem_map_of_mem defined

/-- The definitions with the first names are a part of all of them. -/
theorem part_of_independent {mine : String → Bool} {first second : List String}
    (read : Description.definitions ⟨document, path⟩ = .ok definitions)
    (unique : definitions.keys.Nodup)
    (ours : ∀ name ∈ definitions.keys, mine name = true ↔ name ∈ first)
    (others : ∀ name ∈ definitions.keys, mine name = false ↔ name ∈ second)
    (independent : Independent files ⟨⟨document, path⟩, definitions, options⟩ first second) :
    Source.Part files mine ⟨⟨document, path⟩, definitions, options⟩
      ⟨⟨withDefinitions (·.filter fun entry => mine entry.1) document, path⟩,
        definitions.filter fun entry => mine entry.1, options⟩ where
  definitions := rfl
  options := rfl
  unique := unique
  links := by
    intro m isPlaced target defined named
    have isRef := mem_refsIn_of_placed isPlaced
    have isSource := mem_keys_of_placed isPlaced
    cases source : mine m.source with
    | true =>
      by_contra apart
      exact independent.forward _ isRef ((ours _ isSource).mp source)
        (Or.inl ⟨target, (others target defined).mp (by simpa using apart), named⟩)
    | false =>
      by_contra apart
      exact independent.backward _ isRef ((others _ isSource).mp source)
        (Or.inl ⟨target, (ours target defined).mp (by simpa using apart), named⟩)
  members := by
    intro m isMember isOurs schema
    have left : ∀ name ∈ (definitionsOf document).keys, name ∉ second → mine name = true := by
      intro name defined outside
      rw [← Description.keys_definitions read] at defined
      by_contra dropped
      exact outside ((others name defined).mp (by simpa using dropped))
    refine memberSchema_part_iff left (fun ref refers => ?_) _ schema
    exact independent.forward _ (mem_refsIn_of_member isMember refers)
      ((ours _ (mem_members isMember)).mp isOurs)

/-- A join table is asked for by a many-to-many link from the entity that is changed. -/
theorem exists_link_of_joinTable {source : Source} {xs : List Effect}
    (does : effects files source = .ok xs) {x : Effect} (isEffect : x ∈ xs) {t : JoinTable}
    (joins : x.joinTable = some t) : ∃ l ∈ links source, l.source = x.owner ∧
      l.cardinality = .manyToMany ∧ tableName l.source l.target = t.name := by
  rcases placed_of_mem does isEffect with ⟨_, none⟩ | ⟨m, isPlaced, placed⟩
  · rw [none] at joins
    cases joins
  · obtain ⟨l, link, placed⟩ := bind_eq_ok.mp placed
    obtain ⟨e, f, p, isSource, isTarget, placement, rfl⟩ := Link.effect_eq_ok placed
    have many := manyToMany_of_joinTable placement joins
    obtain ⟨_, isTable⟩ := joinTable_of_manyToMany placement many
    rw [label_of_entityOf isSource, label_of_entityOf isTarget] at isTable
    have same := Option.some.inj (joins.symm.trans isTable)
    exact ⟨l, mem_links.mpr ⟨m, isPlaced, link⟩, rfl, many, by rw [same]; rfl⟩

theorem tablesApart_of_independent {source : Source} {mine : String → Bool}
    {first second : List String}
    (ours : ∀ name ∈ source.definitions.keys, mine name = true ↔ name ∈ first)
    (others : ∀ name ∈ source.definitions.keys, mine name = false ↔ name ∈ second)
    (independent : Independent files source first second) {xs : List Effect}
    (does : effects files source = .ok xs) : TablesApart mine xs := by
  intro x isEffect x' isEffect' t t' joins joins' same
  obtain ⟨l, isLink, owner, many, isTable⟩ := exists_link_of_joinTable does isEffect joins
  obtain ⟨l', isLink', owner', many', isTable'⟩ := exists_link_of_joinTable does isEffect' joins'
  have defined : ∀ l ∈ links source, l.source ∈ source.definitions.keys := by
    intro l isLink
    obtain ⟨m, isPlaced, link⟩ := mem_links.mp isLink
    rw [(Mention.link_eq_ok.mp link).1]
    exact mem_keys_of_placed isPlaced
  have sameTable : tableName l.source l.target = tableName l'.source l'.target := by
    rw [isTable, isTable', same]
  rw [← owner, ← owner']
  cases side : mine l.source with
  | true =>
    by_contra apart
    exact independent.tables l isLink l' isLink' ((ours _ (defined l isLink)).mp side)
      ((others _ (defined l' isLink')).mp (by simpa using Ne.symm apart)) many many' sameTable
  | false =>
    by_contra apart
    exact independent.tables l' isLink' l isLink ((ours _ (defined l' isLink')).mp
      (by simpa using Ne.symm apart)) ((others _ (defined l isLink)).mp side) many' many
        sameTable.symm

/-! Graphs. -/

/-- The tables that a description without paths is built to. All namespaces are named. -/
structure Makes (files : FileTree) (d : Description) (options : Options)
    (definitions : Table Schema) (s : State) : Prop where
  version : checkVersion d = .ok ()
  served : ∃ servers, d.servers = .ok servers
  read : d.definitions = .ok definitions
  tabled : tables ⟨d, definitions, options⟩ { resolver := Resolver.fresh files } = .ok s
  named : ∀ a ∈ Namespace.additions s.entities s.joinTables [], Text.allBlank a.nameSpace = false

theorem exists_makes {d : Description} (noPaths : d.paths = .ok []) {g : Graph}
    (built : graph files d options = .ok g) : ∃ definitions s, Makes files d options definitions s ∧
      g.entities = s.entities ∧ g.joinTables = s.joinTables := by
  obtain ⟨definitions, s, steps⟩ := steps_of_graph built
  have collected := steps.collected
  rw [Endpoint.collect, noPaths] at collected
  have assembled := steps.assembled
  rw [← Except.ok.inj collected] at assembled
  exact ⟨definitions, s, ⟨steps.version, ⟨_, steps.served⟩, steps.read, steps.tabled,
    (Namespace.assemble_eq_ok.mp assembled).1⟩, steps.entities, steps.joinTables⟩

theorem Makes.exists_graph {d : Description} {s : State} (h : Makes files d options definitions s)
    (noPaths : d.paths = .ok []) : ∃ g, graph files d options = .ok g ∧
      g.entities = s.entities ∧ g.joinTables = s.joinTables := by
  obtain ⟨servers, served⟩ := h.served
  obtain ⟨namespaces, assembled⟩ :
      ∃ namespaces, Namespace.assemble s.entities s.joinTables [] = .ok namespaces :=
    ⟨_, Namespace.assemble_eq_ok.mpr ⟨h.named, rfl⟩⟩
  have collected : Endpoint.collect d servers s.entities options = .ok [] := by
    rw [Endpoint.collect, noPaths]
    rfl
  refine ⟨⟨s.entities, Graph.relationshipsOf s.entities, s.joinTables, [], namespaces, servers,
    [servers].foldl Endpoint.addMicroservices [], options⟩, ?_, rfl, rfl⟩
  refine Steps.graph_eq ⟨h.version, h.read, h.tabled, served, collected, ?_, assembled, rfl, rfl,
    rfl, rfl⟩
  rw [Endpoint.microservices, noPaths]
  rfl

/-- The namespaces of two tables are those of both together. -/
theorem mem_additions_union {entities entities₁ entities₂ : Table Entity}
    {joinTables joinTables₁ joinTables₂ : Table JoinTable}
    (ofEntities : Table.Union entities₁ entities₂ entities)
    (ofJoinTables : Table.Union joinTables₁ joinTables₂ joinTables) {a : Namespace.Addition} :
    a ∈ Namespace.additions entities joinTables [] ↔
      a ∈ Namespace.additions entities₁ joinTables₁ [] ∨
        a ∈ Namespace.additions entities₂ joinTables₂ [] := by
  simp only [Namespace.additions, List.map_nil, List.append_nil, List.mem_append, List.mem_map,
    ofEntities.mem_iff, ofJoinTables.mem_iff, or_and_right, exists_or]
  exact or_or_or_comm

section

variable {mine : String → Bool} {first second : List String}
  (unique : (definitionsOf document).keys.Nodup)
  (noPaths : Description.paths ⟨document, path⟩ = .ok [])
  (ours : ∀ name ∈ (definitionsOf document).keys, mine name = true ↔ name ∈ first)
  (others : ∀ name ∈ (definitionsOf document).keys, mine name = false ↔ name ∈ second)
  (independent : ∀ definitions, Description.definitions ⟨document, path⟩ = .ok definitions →
    Independent files ⟨⟨document, path⟩, definitions, options⟩ first second)
include unique ours others independent

/-- The definitions with the first names and those with the second names are the two parts, and
their join tables are different. -/
theorem parts_of_independent (read : Description.definitions ⟨document, path⟩ = .ok definitions) :
    Source.Part files mine ⟨⟨document, path⟩, definitions, options⟩
      ⟨⟨withDefinitions (·.filter fun entry => mine entry.1) document, path⟩,
        definitions.filter fun entry => mine entry.1, options⟩ ∧
    Source.Part files (!mine ·) ⟨⟨document, path⟩, definitions, options⟩
      ⟨⟨withDefinitions (·.filter fun entry => !mine entry.1) document, path⟩,
        definitions.filter fun entry => !mine entry.1, options⟩ ∧
    ∀ xs, effects files ⟨⟨document, path⟩, definitions, options⟩ = .ok xs → TablesApart mine xs := by
  rw [← Description.keys_definitions read] at unique ours others
  have related := independent definitions read
  refine ⟨part_of_independent read unique ours others related, ?_,
    fun xs does => tablesApart_of_independent ours others related does⟩
  exact @part_of_independent _ _ _ _ _ (!mine ·) second first read unique
    (by simpa using others) (by simpa using ours) related.symm

include noPaths

/-- What compiles together compiles apart. -/
theorem exists_graph_parts {g : Graph} (built : graph files ⟨document, path⟩ options = .ok g) :
    ∃ g₁ g₂, graph files ⟨withDefinitions (·.filter fun entry => mine entry.1) document, path⟩
        options = .ok g₁ ∧
      graph files ⟨withDefinitions (·.filter fun entry => !mine entry.1) document, path⟩
        options = .ok g₂ ∧
      Table.Union g₁.entities g₂.entities g.entities ∧
      Table.Union g₁.joinTables g₂.joinTables g.joinTables := by
  obtain ⟨definitions, s, makes, entities, joinTables⟩ := exists_makes noPaths built
  obtain ⟨part, rest, apart⟩ := parts_of_independent unique ours others independent makes.read
  obtain ⟨s₁, s₂, tabled₁, tabled₂, ofEntities, ofJoinTables⟩ :=
    part.exists_tables_parts rest apart makes.tabled
  have filled := fun a => (mem_additions_union ofEntities ofJoinTables (a := a)).mpr
  obtain ⟨version₁, served₁, paths₁⟩ :=
    Description.besides_definitions (·.filter fun entry => mine entry.1) document path path
  obtain ⟨version₂, served₂, paths₂⟩ :=
    Description.besides_definitions (·.filter fun entry => !mine entry.1) document path path
  have makes₁ : Makes files _ options _ s₁ := ⟨(checkVersion_congr version₁).trans makes.version,
    served₁ ▸ makes.served, Description.definitions_filter makes.read, tabled₁,
    fun a member => makes.named a (filled a (Or.inl member))⟩
  have makes₂ : Makes files _ options _ s₂ := ⟨(checkVersion_congr version₂).trans makes.version,
    served₂ ▸ makes.served, @Description.definitions_filter _ _ _ (!mine ·) _ makes.read, tabled₂,
    fun a member => makes.named a (filled a (Or.inr member))⟩
  obtain ⟨g₁, built₁, entities₁, joinTables₁⟩ := makes₁.exists_graph (paths₁.trans noPaths)
  obtain ⟨g₂, built₂, entities₂, joinTables₂⟩ := makes₂.exists_graph (paths₂.trans noPaths)
  rw [entities, joinTables]
  rw [← entities₁, ← entities₂] at ofEntities
  rw [← joinTables₁, ← joinTables₂] at ofJoinTables
  exact ⟨g₁, g₂, built₁, built₂, ofEntities, ofJoinTables⟩

/-- What compiles apart compiles together. -/
theorem exists_graph_whole {g₁ g₂ : Graph}
    (built₁ : graph files ⟨withDefinitions (·.filter fun entry => mine entry.1) document, path⟩
      options = .ok g₁)
    (built₂ : graph files ⟨withDefinitions (·.filter fun entry => !mine entry.1) document, path⟩
      options = .ok g₂) : ∃ g, graph files ⟨document, path⟩ options = .ok g := by
  obtain ⟨version₁, served₁, paths₁⟩ :=
    Description.besides_definitions (·.filter fun entry => mine entry.1) document path path
  obtain ⟨_, _, paths₂⟩ :=
    Description.besides_definitions (·.filter fun entry => !mine entry.1) document path path
  obtain ⟨_, s₁, makes₁, _⟩ := exists_makes (paths₁.trans noPaths) built₁
  obtain ⟨_, s₂, makes₂, _⟩ := exists_makes (paths₂.trans noPaths) built₂
  obtain ⟨definitions, read⟩ := @Description.exists_definitions _ path _ _ mine _ _ makes₁.read
    makes₂.read
  have read₁ := makes₁.read
  have read₂ := makes₂.read
  rw [Description.definitions_filter read] at read₁
  rw [@Description.definitions_filter _ _ _ (!mine ·) _ read] at read₂
  obtain rfl := Except.ok.inj read₁
  obtain rfl := Except.ok.inj read₂
  obtain ⟨part, rest, apart⟩ := parts_of_independent unique ours others independent read
  obtain ⟨s, tabled⟩ := part.exists_tables_whole rest makes₁.tabled makes₂.tabled
  obtain ⟨s₁', s₂', tabled₁, tabled₂, ofEntities, ofJoinTables⟩ :=
    part.exists_tables_parts rest apart tabled
  obtain rfl := Except.ok.inj (makes₁.tabled.symm.trans tabled₁)
  obtain rfl := Except.ok.inj (makes₂.tabled.symm.trans tabled₂)
  have makes : Makes files ⟨document, path⟩ options definitions s :=
    ⟨(checkVersion_congr version₁.symm).trans makes₁.version, served₁ ▸ makes₁.served, read, tabled,
      fun a member => ((mem_additions_union ofEntities ofJoinTables).mp member).elim (makes₁.named a)
        (makes₂.named a)⟩
  obtain ⟨g, built, _⟩ := makes.exists_graph noPaths
  exact ⟨g, built⟩

end

/-- A document with the definitions of two tables that have nothing to do with each other compiles
exactly if it does with each table alone, and its entities and join tables are those of both. -/
theorem graph_union {first second : Table Json}
    (union : Table.Union first second (definitionsOf document))
    (unique : (definitionsOf document).keys.Nodup)
    (noPaths : Description.paths ⟨document, path⟩ = .ok [])
    (independent : ∀ definitions, Description.definitions ⟨document, path⟩ = .ok definitions →
      Independent files ⟨⟨document, path⟩, definitions, options⟩ first.keys second.keys) :
    ((∃ g, graph files ⟨document, path⟩ options = .ok g) ↔
      (∃ g, graph files ⟨withDefinitions (fun _ => first) document, path⟩ options = .ok g) ∧
      ∃ g, graph files ⟨withDefinitions (fun _ => second) document, path⟩ options = .ok g) ∧
    ∀ g g₁ g₂, graph files ⟨document, path⟩ options = .ok g →
      graph files ⟨withDefinitions (fun _ => first) document, path⟩ options = .ok g₁ →
      graph files ⟨withDefinitions (fun _ => second) document, path⟩ options = .ok g₂ →
      Table.Union g₁.entities g₂.entities g.entities ∧
        Table.Union g₁.joinTables g₂.joinTables g.joinTables := by
  have isFirst : withDefinitions (fun _ => first) document =
      withDefinitions (·.filter fun entry => decide (entry.1 ∈ first.keys)) document :=
    Merge.withDefinitions_congr union.isFirst.symm
  have isSecond : withDefinitions (fun _ => second) document =
      withDefinitions (·.filter fun entry => !decide (entry.1 ∈ first.keys)) document := by
    refine Merge.withDefinitions_congr ?_
    simpa using union.isSecond.symm
  have others : ∀ name ∈ (definitionsOf document).keys,
      decide (name ∈ first.keys) = false ↔ name ∈ second.keys := by
    intro name defined
    rw [decide_eq_false_iff_not, ← union.mem_keys_second]
    exact (and_iff_right defined).symm
  have apart := fun g => @exists_graph_parts files _ _ options _ _ _ unique noPaths
    (fun name _ => decide_eq_true_iff) others independent g
  have together := fun g₁ g₂ => @exists_graph_whole files _ _ options _ _ _ unique noPaths
    (fun name _ => decide_eq_true_iff) others independent g₁ g₂
  rw [isFirst, isSecond]
  refine ⟨⟨?_, ?_⟩, ?_⟩
  · rintro ⟨g, built⟩
    obtain ⟨g₁, g₂, built₁, built₂, _⟩ := apart g built
    exact ⟨⟨g₁, built₁⟩, g₂, built₂⟩
  · rintro ⟨⟨g₁, built₁⟩, g₂, built₂⟩
    exact together g₁ g₂ built₁ built₂
  · intro g g₁ g₂ built built₁ built₂
    obtain ⟨g₁', g₂', built₁', built₂', unions⟩ := apart g built
    obtain rfl := Except.ok.inj (built₁.symm.trans built₁')
    obtain rfl := Except.ok.inj (built₂.symm.trans built₂')
    exact unions

/-- Dogs are animals and play with them; orders are made of items. -/
def petShop : Description where
  document :=
    let toMany (name : String) : Json := .object [("type", .string "array"),
      ("items", .object [("$ref", .string (definitionRef name))])]
    .object [("openapi", .string "3.0.0"), ("components", .object [("schemas", .object [
      ("Dog", .object [
        ("allOf", .array [.object [("$ref", .string (definitionRef "Animal"))]]),
        ("properties", .object [("friends", toMany "Animal")])]),
      ("Item", .object [("properties", .object [("orders", toMany "Order")])]),
      ("Animal", .object [("properties", .object [("friends", toMany "Dog")])]),
      ("Order", .object [("properties", .object [("items", toMany "Item")])])])])]

/-- The animals of the shop. -/
def animals : Table Json :=
  (definitionsOf petShop.document).filter fun entry => decide (entry.1 ∈ ["Dog", "Animal"])

/-- What the shop sells besides. -/
def goods : Table Json :=
  (definitionsOf petShop.document).filter fun entry => !decide (entry.1 ∈ ["Dog", "Animal"])

/-- Animals and goods have nothing to do with each other. -/
theorem petShop_independent (definitions : Table Schema)
    (read : petShop.definitions = .ok definitions) :
    Independent {} ⟨petShop, definitions, {}⟩ animals.keys goods.keys := by
  have names : animals.keys = ["Dog", "Animal"] ∧ goods.keys = ["Item", "Order"] := by
    decide +kernel
  have refs : petShop.definitions.toOption.map refsIn = some
      [("Dog", definitionRef "Animal"), ("Item", definitionRef "Order"),
        ("Animal", definitionRef "Dog"), ("Order", definitionRef "Item"),
        ("Dog", definitionRef "Animal")] := by
    decide +kernel
  have tables : petShop.definitions.toOption.map (fun definitions =>
      (links ⟨petShop, definitions, {}⟩).map fun l => (l.source, tableName l.source l.target)) =
      some [("Dog", "animaldog"), ("Item", "itemorder"), ("Animal", "animaldog"),
        ("Order", "itemorder")] := by
    decide +kernel
  have proper : ∀ name ∈ ["Dog", "Item", "Animal", "Order"], name ≠ "" ∧ EndsClean name ∧
      ((definitionsOf petShop.document).get? name).map aliasTarget? = some none := by
    decide +kernel
  rw [read] at refs tables
  have isRefs : refsIn definitions = _ := Option.some.inj refs
  have isTables : (links ⟨petShop, definitions, {}⟩).map (fun l =>
    (l.source, tableName l.source l.target)) = _ := Option.some.inj tables
  rw [names.1, names.2]
  refine ⟨unrelated_of_named ?_ (fun name isName => proper name ?_) (by decide),
    unrelated_of_named ?_ (fun name isName => proper name ?_) (by decide), ?_⟩
  · rw [isRefs]
    decide +kernel
  · revert name
    decide
  · rw [isRefs]
    decide +kernel
  · revert name
    decide
  · intro l isLink l' isLink' isFirst isSecond _ _
    have asked := List.mem_map_of_mem (f := fun l : Link =>
      (l.source, tableName l.source l.target)) isLink
    have asked' := List.mem_map_of_mem (f := fun l : Link =>
      (l.source, tableName l.source l.target)) isLink'
    rw [isTables] at asked asked'
    have apart : ∀ a ∈ [("Dog", "animaldog"), ("Item", "itemorder"), ("Animal", "animaldog"),
        ("Order", "itemorder")], ∀ a' ∈ [("Dog", "animaldog"), ("Item", "itemorder"),
        ("Animal", "animaldog"), ("Order", "itemorder")], a.1 ∈ ["Dog", "Animal"] →
        a'.1 ∈ ["Item", "Order"] → a.2 ≠ a'.2 := by
      decide
    have differ := apart _ asked _ asked' isFirst isSecond
    exact differ

/-- The shop has the entities and the join tables of its animals and of its goods. -/
theorem petShop_union : ∃ g g₁ g₂, graph {} petShop {} = .ok g ∧
    g.entities.keys = ["Dog", "Item", "Animal", "Order"] ∧
    g.joinTables.keys = ["animaldog", "itemorder"] ∧
    graph {} ⟨withDefinitions (fun _ => animals) petShop.document, none⟩ {} = .ok g₁ ∧
    graph {} ⟨withDefinitions (fun _ => goods) petShop.document, none⟩ {} = .ok g₂ ∧
    Table.Union g₁.entities g₂.entities g.entities ∧
    Table.Union g₁.joinTables g₂.joinTables g.joinTables := by
  have run : (graph {} petShop {}).toOption.map (fun g => (g.entities.keys, g.joinTables.keys)) =
      some (["Dog", "Item", "Animal", "Order"], ["animaldog", "itemorder"]) := by
    decide +kernel
  have union : Table.Union animals goods (definitionsOf petShop.document) :=
    @Table.union_of_filter _ (fun key => decide (key ∈ ["Dog", "Animal"])) _ _ fun _ _ => rfl
  obtain ⟨g, built, shape⟩ := exists_ok_of_map run
  obtain ⟨entities, joinTables⟩ := Prod.mk.inj shape
  obtain ⟨compiles, unions⟩ := @graph_union {} petShop.document none {} _ _ union
    (by decide +kernel) (by rfl) petShop_independent
  obtain ⟨⟨g₁, built₁⟩, g₂, built₂⟩ := compiles.mp ⟨g, built⟩
  exact ⟨g, g₁, g₂, built, entities, joinTables, built₁, built₂,
    unions g g₁ g₂ built built₁ built₂⟩

end ApiGraph.Build
