import ApiGraph.Proofs.Build.Order

/-! Join tables and the pairs that they serve. Every relationship of a graph comes from a link
(`Made.related_of_mem`), so a many-to-many relationship names a join table that is there. The name
is made of the two labels, and so is that of each key column. A table therefore serves its pair
alone if the two labels differ and no other pair comes to the same name; with one label for a
definition it does so in no other case (`joinTable_serves`). -/

namespace ApiGraph.Build

variable {files : FileTree} {source : Source} {definitions : Table Schema} {xs : List Effect}

/-! Relationships. -/

theorem relationships_addScalarColumns (e : Entity) (requiredBy : List Schema)
    (properties : List (String × Schema)) :
    (addScalarColumns e requiredBy properties).relationships = e.relationships :=
  addScalarColumns_induction (motive := fun e' => e'.relationships = e.relationships) rfl
    (fun _ _ _ _ same => same) requiredBy properties

/-- A relationship that a link between definitions adds to its source. -/
inductive Related (source : Source) (owner : String) (r : Relationship) : Prop
  | intro {l : Link} {schema : Schema} {e f : Entity} {p : Link.Placement}
    (isOf : l.IsOf source.definitions schema) (isOwner : l.source = owner)
    (isSource : entityOf source l.source = .ok e) (isTarget : entityOf source l.target = .ok f)
    (placed : l.placement e f = .ok p) (isRelationship : r = l.relationship p)

/-- An effect that adds no relationships but those of links. -/
def Effect.Relates (source : Source) (x : Effect) : Prop :=
  ∀ e : Entity, ∀ entry ∈ (x.change e).relationships,
    entry ∈ e.relationships ∨ Related source x.owner entry.2

theorem relates_of_placed (checked : checkDefinitions source.definitions = .ok ()) {m : Mention}
    (isPlaced : IsPlaced source.definitions m) {x : Effect} (does : m.effect source = .ok x) :
    x.Relates source := by
  obtain ⟨l, schema, isOf, does⟩ := link_of_placed checked isPlaced does
  obtain ⟨e, f, p, isSource, isTarget, placed, rfl⟩ := Link.effect_eq_ok does
  intro before entry member
  by_cases adds : l.addsRelationship = true
  · simp only [adds, ↓reduceIte] at member
    rcases Table.mem_insert member with old | rfl
    · exact Or.inl old
    · exact Or.inr ⟨isOf, rfl, isSource, isTarget, placed, rfl⟩
  · simp only [adds, Bool.false_eq_true, ↓reduceIte] at member
    exact Or.inl member

theorem effects_relate (checked : checkDefinitions source.definitions = .ok ())
    (does : effects files source = .ok xs) : ∀ x ∈ xs, x.Relates source := by
  refine forall_effects (motive := fun x => x.Relates source) does ?_ ?_ ?_
  · intro m _ x included e entry member
    obtain ⟨target, _, included⟩ := bind_eq_ok.mp included
    cases included
    rw [relationships_addScalarColumns] at member
    exact Or.inl member
  · intro a isAlternative x expanded
    rw [Alternative.effect] at expanded
    split at expanded
    · cases expanded
      exact fun e entry member => Or.inl member
    · split at expanded
      · exact relates_of_placed checked (Or.inl ⟨a, isAlternative, ‹_›, ‹_›⟩) expanded
      · cases expanded
  · exact fun m isMention x placed => relates_of_placed checked (Or.inr isMention) placed

theorem related_of_changeAll {owner : String} (relates : ∀ x ∈ xs, x.Relates source)
    (owned : ∀ x ∈ xs, x.owner = owner) {e : Entity} {entry : String × Relationship}
    (member : entry ∈ (changeAll xs e).relationships) :
    entry ∈ e.relationships ∨ Related source owner entry.2 := by
  induction xs generalizing e with
  | nil => exact Or.inl member
  | cons x rest ih =>
    have later := ih (fun y isLater => relates y (by simp [isLater]))
      (fun y isLater => owned y (by simp [isLater])) member
    rcases later with before | related
    · rcases relates x (by simp) e entry before with old | related
      · exact Or.inl old
      · rw [owned x (by simp)] at related
        exact Or.inr related
    · exact Or.inr related

/-- A graph of the tables that the effects of all steps come to. -/
structure Made (files : FileTree) (source : Source) (xs : List Effect) (g : Graph) : Prop where
  unique : source.definitions.keys.Nodup
  checked : checkDefinitions source.definitions = .ok ()
  does : effects files source = .ok xs
  entities : g.entities =
    ((unbound files source xs).bound (unbound files source xs).pending).entities
  joinTables : g.joinTables =
    ((unbound files source xs).bound (unbound files source xs).pending).joinTables
  relationships : g.relationships = Graph.relationshipsOf g.entities

theorem exists_made {d : Description} {options : Options} {g : Graph}
    (built : graph files d options = .ok g) (read : d.definitions = .ok definitions)
    (unique : definitions.keys.Nodup) : ∃ xs, Made files ⟨d, definitions, options⟩ xs g := by
  obtain ⟨definitions', s, steps⟩ := steps_of_graph built
  have read' := steps.read
  rw [read] at read'
  obtain rfl := Except.ok.inj read'
  obtain ⟨checked, xs, does, entities, joinTables⟩ := tables_eq_ok unique steps.tabled
  rw [← steps.entities] at entities
  rw [← steps.joinTables] at joinTables
  refine ⟨xs, unique, checked, does, entities, joinTables, ?_⟩
  rw [steps.relationships, steps.entities]

namespace Made

variable {g : Graph}

theorem entities_nodup (made : Made files source xs g) : g.entities.keys.Nodup := by
  rw [made.entities, keys_entities_bound]
  exact made.unique

/-- An entity as it was made, with the columns and relationships of the graph. -/
theorem exists_entity (made : Made files source xs g) {name : String} {e : Entity}
    (isMade : entityOf source name = .ok e) : ∃ e', g.entities.get? name = some e' ∧
      e'.bare = e ∧ (unbound files source xs).reference name = e'.foreignKeyTarget := by
  have bare := bare_entities made.does name
  obtain ⟨schema, defined⟩ := Table.mem_keys_iff.mp (entityOf_eq_ok isMade).1
  rw [entityOf, defined] at isMade
  obtain rfl := Except.ok.inj isMade
  rw [defined, Option.map_some] at bare
  obtain ⟨e', there, same⟩ := Option.map_eq_some_iff.mp bare
  refine ⟨e', by rw [made.entities, there], same, ?_⟩
  rw [← reference_bound _ (unbound files source xs).pending, State.reference, there]
  rfl

theorem related_of_get? (made : Made files source xs g) {name : String} {e : Entity}
    (there : g.entities.get? name = some e) {entry : String × Relationship}
    (member : entry ∈ e.relationships) : Related source name entry.2 := by
  rw [made.entities, get?_bound_entities, Option.map_eq_some_iff] at there
  obtain ⟨before, there, rfl⟩ := there
  rw [get?_unbound, Option.map_eq_some_iff] at there
  obtain ⟨schema, _, rfl⟩ := there
  have relates : ∀ x ∈ xs.filter (·.owner = name), x.Relates source :=
    fun x isOwn => effects_relate made.checked made.does x (List.mem_filter.mp isOwn).1
  have owned : ∀ x ∈ xs.filter (·.owner = name), x.owner = name :=
    fun x isOwn => by simpa using (List.mem_filter.mp isOwn).2
  rcases related_of_changeAll relates owned member with early | related
  · rw [madeEntity, relationships_addScalarColumns] at early
    cases early
  · exact related

/-- A relationship of a graph is one of the entity that it names as its source. -/
theorem exists_entity_of_relationship (made : Made files source xs g) {entry : RelationshipEntry}
    (member : entry ∈ g.relationships) : ∃ e, g.entities.get? entry.source = some e ∧
      (entry.name, entry.relationship) ∈ e.relationships := by
  simp only [made.relationships, Graph.relationshipsOf, Table.values, List.mem_flatMap,
    List.mem_map] at member
  obtain ⟨_, ⟨⟨name, e⟩, inTable, rfl⟩, ⟨key, r⟩, isRelationship, rfl⟩ := member
  have there := (Table.get?_eq_some_iff made.entities_nodup).mpr inTable
  have bare := bare_entities made.does name
  rw [← made.entities, there, Option.map_some] at bare
  obtain ⟨schema, _, isMade⟩ := Option.map_eq_some_iff.mp bare.symm
  have isNamed : e.name = name := (congrArg Entity.name isMade).symm
  rw [← isNamed] at there
  exact ⟨e, there, isRelationship⟩

/-- The relationships of a graph come from links. -/
theorem related_of_mem (made : Made files source xs g) {entry : RelationshipEntry}
    (member : entry ∈ g.relationships) : Related source entry.source entry.relationship := by
  obtain ⟨e, there, isRelationship⟩ := made.exists_entity_of_relationship member
  exact made.related_of_get? there isRelationship

end Made

/-! Join tables. -/

/-- The name of the join table between two definitions. -/
def tableName (a b : String) : String := JoinTable.nameFor (Naming.flat a) (Naming.flat b)

/-- A many-to-many link whose join table has the given name. -/
structure Joining (definitions : Table Schema) (table : String) (l : Link) : Prop where
  isLink : ∃ schema, l.IsOf definitions schema
  many : l.cardinality = .manyToMany
  isTable : tableName l.source l.target = table

/-- The key of one side on a join table. -/
def sideKey (table side : String) : PendingKey :=
  ⟨.joinTable table, Entity.keyColumnFor (Naming.flat side), side⟩

/-- The keys of a join table are one for each side of a link that uses it. -/
theorem mem_keys_joinTable (checked : checkDefinitions source.definitions = .ok ())
    (does : effects files source = .ok xs) {table : String} {key : PendingKey} :
    key ∈ keysOf (.joinTable table) (unbound files source xs).pending ↔
      ∃ l side, Joining source.definitions table l ∧ (side = l.source ∨ side = l.target) ∧
        key = sideKey table side := by
  rw [mem_keysOf, mem_pending_unbound, mem_keys_iff_needs checked does]
  constructor
  · rintro ⟨⟨l, schema, isOf, needs⟩, isOwner⟩
    generalize isCardinality : l.cardinality = c at needs
    cases needs with
    | @manyToMany side isSide =>
      obtain rfl := KeyOwner.joinTable.inj isOwner
      exact ⟨l, side, ⟨⟨schema, isOf⟩, isCardinality, rfl⟩, isSide, rfl⟩
    | _ => cases isOwner
  · rintro ⟨l, side, ⟨⟨schema, isOf⟩, many, rfl⟩, isSide, rfl⟩
    refine ⟨⟨l, schema, isOf, ?_⟩, rfl⟩
    rw [many]
    exact .manyToMany isSide

theorem mem_keys_bindAll {reference : String → String} {keys : List PendingKey}
    {columns : Table Column} {name : String} :
    name ∈ (bindAll reference keys columns).keys ↔
      name ∈ columns.keys ∨ ∃ key ∈ keys, key.column = name := by
  induction keys generalizing columns with
  | nil => simp [bindAll]
  | cons first rest ih =>
    have step := @ih (bindColumn columns first.column (reference first.target))
    rw [bindAll] at step
    rw [bindAll, List.foldl_cons, step, Table.mem_keys_iff, get?_bindColumn]
    by_cases here : first.column = name
    · simp [here]
    · simp [here, Table.mem_keys_iff]

/-- What stands under the name of a join table. -/
theorem Made.exists_joinTable {g : Graph} (made : Made files source xs g) {table : String}
    {l : Link} (joining : Joining source.definitions table l) : ∃ t l' e,
      g.joinTables.get? table = some t ∧ t.name = table ∧ Joining source.definitions table l' ∧
      entityOf source l'.source = .ok e ∧ t.nameSpace = e.nameSpace ∧
      t.entities = sortedPair l'.source l'.target ∧
      t.columns = bindAll (unbound files source xs).reference
        (keysOf (.joinTable table) (unbound files source xs).pending) [] := by
  obtain ⟨⟨schema, isOf⟩, many, rfl⟩ := joining
  obtain ⟨x, isEffect, effect⟩ := placed_of_link made.checked made.does isOf
  obtain ⟨e, f, p, isSource, isTarget, placed, rfl⟩ := Link.effect_eq_ok effect
  obtain ⟨_, joins⟩ := joinTable_of_manyToMany placed many
  rw [label_of_entityOf isSource, label_of_entityOf isTarget] at joins
  obtain ⟨t', there⟩ := @exists_joinTable_unbound files source _ _ isEffect _ joins
  change (unbound files source xs).joinTables.get? (tableName l.source l.target) = some t' at there
  obtain ⟨x', isEffect', recorded', isName⟩ := exists_effect_of_joinTable there
  obtain ⟨l', schema', e', f', isOf', many', isSource', _, _, isTable'⟩ :=
    exists_joining_link made.checked made.does isEffect' recorded'
  have sameTable : tableName l'.source l'.target = tableName l.source l.target := by
    rw [← isName, isTable']
    rfl
  refine ⟨bindJoinTable (unbound files source xs).reference (unbound files source xs).pending
    (tableName l.source l.target) t', l', e', ?_, isName, ⟨⟨schema', isOf'⟩, many', sameTable⟩,
    isSource', ?_, ?_, ?_⟩
  · rw [made.joinTables, get?_bound_joinTables, there]
    rfl
  · rw [bindJoinTable, isTable']
  · rw [bindJoinTable, isTable']
  · rw [bindJoinTable, isTable']

/-! The pair of a table. -/

theorem sortedPair_comm (a b : String) : sortedPair a b = sortedPair b a := by
  rcases sortedPair_cases a b with ⟨first, order⟩ | ⟨first, order⟩
  · rcases sortedPair_cases b a with ⟨second, order'⟩ | ⟨second, _⟩
    · rw [first, second, eq_of_not_lt order order']
    · rw [first, second]
  · rw [first, sortedPair, if_neg (String.lt_asymm order)]

theorem nameFor_comm (a b : String) : JoinTable.nameFor a b = JoinTable.nameFor b a := by
  rw [JoinTable.nameFor, JoinTable.nameFor, sortedPair_comm]

/-- A table named by one label twice is named by no other label together with it. -/
theorem eq_of_nameFor_self {a b : String}
    (same : JoinTable.nameFor a a = JoinTable.nameFor a b) : a = b := by
  have twice : JoinTable.nameFor a a = a ++ a := by
    rcases sortedPair_cases a a with ⟨pair, _⟩ | ⟨pair, _⟩
    · rw [JoinTable.nameFor, pair]
    · rw [JoinTable.nameFor, pair]
  rw [twice] at same
  have texts := congrArg String.toList same
  rcases sortedPair_cases a b with ⟨pair, _⟩ | ⟨pair, _⟩
  · simp only [JoinTable.nameFor, pair, String.toList_append] at texts
    exact String.toList_inj.mp (List.append_cancel_left texts)
  · simp only [JoinTable.nameFor, pair, String.toList_append] at texts
    exact String.toList_inj.mp (List.append_cancel_right texts)

/-- The table of a pair serves it alone. -/
structure Serves (g : Graph) (t : JoinTable) (a b : Entity) : Prop where
  entities : t.entities = sortedPair a.name b.name
  nameSpace : t.nameSpace = a.nameSpace
  columns : t.columns.Perm
    [(a.keyColumn, .key a.foreignKeyTarget), (b.keyColumn, .key b.foreignKeyTarget)]
  alone : ∀ entry ∈ g.relationships, entry.relationship.joinTable = some t.name →
    sortedPair entry.source entry.relationship.target = sortedPair a.name b.name

/-- Two definitions with two labels, whose join table no other pair comes to. -/
structure OwnTable (definitions : Table Schema) (a b : String) : Prop where
  labels : Naming.flat a ≠ Naming.flat b
  apart : ∀ l, Joining definitions (tableName a b) l → sortedPair l.source l.target = sortedPair a b

/-- The keys of a table that one pair uses. -/
theorem mem_keys_ownTable (checked : checkDefinitions source.definitions = .ok ())
    (does : effects files source = .ok xs) {l : Link}
    (joining : Joining source.definitions (tableName l.source l.target) l)
    (own : OwnTable source.definitions l.source l.target) (key : PendingKey) :
    key ∈ keysOf (.joinTable (tableName l.source l.target)) (unbound files source xs).pending ↔
      key ∈ [l.source, l.target].map (sideKey (tableName l.source l.target)) := by
  rw [mem_keys_joinTable checked does]
  constructor
  · rintro ⟨l', side, joining', isSide, rfl⟩
    apply List.mem_map_of_mem
    rw [List.mem_pair]
    rcases eq_of_sortedPair (own.apart l' joining') with ⟨first, second⟩ | ⟨first, second⟩
    · rwa [← first, ← second]
    · rwa [← first, ← second, or_comm]
  · intro member
    obtain ⟨side, isSide, rfl⟩ := List.mem_map.mp member
    exact ⟨l, side, joining, List.mem_pair.mp isSide, rfl⟩

/-- The columns of a table that one pair uses. -/
theorem columns_of_ownTable (checked : checkDefinitions source.definitions = .ok ())
    (does : effects files source = .ok xs) {l : Link}
    (joining : Joining source.definitions (tableName l.source l.target) l)
    (own : OwnTable source.definitions l.source l.target) (reference : String → String) :
    (bindAll reference (keysOf (.joinTable (tableName l.source l.target))
        (unbound files source xs).pending) []).Perm
      [(Entity.keyColumnFor (Naming.flat l.source), .key (reference l.source)),
        (Entity.keyColumnFor (Naming.flat l.target), .key (reference l.target))] := by
  have distinct : Entity.keyColumnFor (Naming.flat l.source) ≠
      Entity.keyColumnFor (Naming.flat l.target) :=
    fun same => own.labels (keyColumnFor_injective same)
  have agree : Agree reference
      ([l.source, l.target].map (sideKey (tableName l.source l.target))) := by
    have columns : (([l.source, l.target].map (sideKey (tableName l.source l.target))).map
        PendingKey.column).Nodup := by
      simpa [sideKey] using distinct
    intro key member key' member' same
    rw [List.inj_on_of_nodup_map columns member member' same]
  have unique : (Table.keys ([] : Table Column)).Nodup := List.nodup_nil
  have perm := bindAll_perm agree (mem_keys_ownTable checked does joining own) unique
  refine perm.symm.trans (.of_eq ?_)
  simp [bindAll, bindColumn, sideKey, Table.insert, Table.get?, distinct]

/-- A relationship with a join table is that of a many-to-many link. -/
theorem joining_of_related {owner : String} {r : Relationship} (related : Related source owner r)
    (many : r.cardinality = .manyToMany ∨ r.joinTable.isSome = true) : ∃ l made made',
      Joining source.definitions (tableName l.source l.target) l ∧ l.source = owner ∧
      l.target = r.target ∧ entityOf source l.source = .ok made ∧
      entityOf source l.target = .ok made' ∧ made.nameSpace = made'.nameSpace ∧
      r.joinTable = some (tableName l.source l.target) := by
  obtain @⟨l, schema, e, f, p, isOf, isOwner, isSource, isTarget, placed, rfl⟩ := related
  have isMany : l.cardinality = .manyToMany := by
    rcases many with many | joins
    · exact many
    · obtain ⟨name, joins⟩ := Option.isSome_iff_exists.mp joins
      obtain ⟨t, joins, _⟩ := Option.map_eq_some_iff.mp joins
      exact manyToMany_of_joinTable placed joins
  obtain ⟨together, joins⟩ := joinTable_of_manyToMany placed isMany
  rw [label_of_entityOf isSource, label_of_entityOf isTarget] at joins
  refine ⟨l, e, f, ⟨⟨schema, isOf⟩, isMany, rfl⟩, isOwner, rfl, isSource, isTarget, together, ?_⟩
  rw [Link.relationship, joins]
  rfl

theorem Joining.mem_keys {table : String} {l : Link} (joining : Joining definitions table l)
    {side : String} (isSide : side = l.source ∨ side = l.target) : side ∈ definitions.keys := by
  obtain ⟨schema, isOf⟩ := joining.isLink
  rcases isSide with rfl | rfl
  · exact isOf.held.mem_keys
  · exact Table.mem_keys_of_get? isOf.defined

/-- With one label for a definition, a table with one column for each side of a link is used by no
other pair: that pair would have the same two labels, or one of them twice. -/
theorem ownTable_of_columns (labels : (source.definitions.keys.map Naming.flat).Nodup)
    (checked : checkDefinitions source.definitions = .ok ())
    (does : effects files source = .ok xs) {l : Link}
    (joining : Joining source.definitions (tableName l.source l.target) l)
    {reference : String → String} {first second : Column}
    (columns : (bindAll reference (keysOf (.joinTable (tableName l.source l.target))
        (unbound files source xs).pending) []).Perm
      [(Entity.keyColumnFor (Naming.flat l.source), first),
        (Entity.keyColumnFor (Naming.flat l.target), second)]) :
    OwnTable source.definitions l.source l.target := by
  have keys := columns.map Prod.fst
  have different : Naming.flat l.source ≠ Naming.flat l.target := by
    have distinct := keys.nodup_iff.mp (keys_bindAll_nodup _ _ (by simp))
    intro same
    simp [same] at distinct
  refine ⟨different, ?_⟩
  intro l' joining'
  have sides : ∀ side, side = l'.source ∨ side = l'.target → side = l.source ∨ side = l.target := by
    intro side isSide
    have isKey := (mem_keys_joinTable checked does).mpr ⟨l', side, joining', isSide, rfl⟩
    have inColumns := keys.mem_iff.mp (mem_keys_bindAll.mpr (Or.inr ⟨_, isKey, rfl⟩))
    have defined := joining'.mem_keys isSide
    rcases List.mem_pair.mp inColumns with same | same
    · exact Or.inl (List.inj_on_of_nodup_map labels defined (joining.mem_keys (Or.inl rfl))
        (keyColumnFor_injective same))
    · exact Or.inr (List.inj_on_of_nodup_map labels defined (joining.mem_keys (Or.inr rfl))
        (keyColumnFor_injective same))
  have sameTable := joining'.isTable
  rw [tableName, tableName] at sameTable
  rcases sides _ (Or.inl rfl) with isSource | isSource
  · rcases sides _ (Or.inr rfl) with isTarget | isTarget
    · rw [isSource, isTarget] at sameTable
      exact absurd (eq_of_nameFor_self sameTable) different
    · rw [isSource, isTarget]
  · rcases sides _ (Or.inr rfl) with isTarget | isTarget
    · rw [isSource, isTarget, sortedPair_comm]
    · rw [isSource, isTarget, nameFor_comm (Naming.flat l.source)] at sameTable
      exact absurd (eq_of_nameFor_self sameTable).symm different

/-- A relationship with a join table of the pair's own is served by it alone. -/
theorem Made.serves {g : Graph} (made : Made files source xs g) {l : Link} {a b : Entity}
    {t : JoinTable} (joining : Joining source.definitions (tableName l.source l.target) l)
    (own : OwnTable source.definitions l.source l.target)
    (isSource : entityOf source l.source = .ok a.bare)
    (isTarget : entityOf source l.target = .ok b.bare) (together : a.nameSpace = b.nameSpace)
    (there : g.joinTables.get? (tableName l.source l.target) = some t) : Serves g t a b := by
  have nameA : a.name = l.source := (entityOf_eq_ok isSource).2
  have nameB : b.name = l.target := (entityOf_eq_ok isTarget).2
  obtain ⟨t', l', e, there', isName, joining', isMade, space, pair, columns⟩ :=
    made.exists_joinTable joining
  rw [there] at there'
  obtain rfl := Option.some.inj there'
  have samePair := own.apart l' joining'
  refine ⟨?_, ?_, ?_, ?_⟩
  · rw [pair, samePair, nameA, nameB]
  · rcases eq_of_sortedPair samePair with ⟨first, _⟩ | ⟨first, _⟩
    · rw [first, isSource] at isMade
      rw [space, ← Except.ok.inj isMade]
      rfl
    · rw [first, isTarget] at isMade
      rw [space, together, ← Except.ok.inj isMade]
      rfl
  · obtain ⟨a', thereA, sameA, referenceA⟩ := made.exists_entity isSource
    obtain ⟨b', thereB, sameB, referenceB⟩ := made.exists_entity isTarget
    have targetA : a'.bare.foreignKeyTarget = a.bare.foreignKeyTarget := by rw [sameA]
    have targetB : b'.bare.foreignKeyTarget = b.bare.foreignKeyTarget := by rw [sameB]
    have perm := columns_of_ownTable made.checked made.does joining own
      (unbound files source xs).reference
    rw [referenceA, referenceB, ← columns] at perm
    rw [Entity.keyColumn, Entity.keyColumn, Entity.label, Entity.label, nameA, nameB]
    rwa [show a'.foreignKeyTarget = a.foreignKeyTarget from targetA,
      show b'.foreignKeyTarget = b.foreignKeyTarget from targetB] at perm
  · intro entry member isTable
    obtain ⟨l', _, _, joining', isSource', isTarget', _, _, _, isTable'⟩ :=
      joining_of_related (made.related_of_mem member) (Or.inr (by simp [isTable]))
    rw [isTable, isName, Option.some.injEq] at isTable'
    rw [← isSource', ← isTarget', nameA, nameB]
    exact own.apart l' ⟨joining'.isLink, joining'.many, isTable'.symm⟩

/-- Every many-to-many relationship of a graph is between two entities of one namespace and names
a join table that is there. The table serves the pair alone if it is the pair's own. With one label
for a definition it serves no other pair. -/
theorem joinTable_serves {d : Description} {options : Options} {g : Graph}
    (built : graph files d options = .ok g) (read : d.definitions = .ok definitions)
    (unique : definitions.keys.Nodup) :
    ∀ entry ∈ g.relationships, entry.relationship.cardinality = .manyToMany →
      ∃ a b t, g.entities.get? entry.source = some a ∧ a.name = entry.source ∧
        g.entities.get? entry.relationship.target = some b ∧
        b.name = entry.relationship.target ∧ a.nameSpace = b.nameSpace ∧
        entry.relationship.joinTable = some t.name ∧ g.joinTables.get? t.name = some t ∧
        t.name = JoinTable.nameFor a.label b.label ∧
        (OwnTable definitions a.name b.name → Serves g t a b) ∧
        ((definitions.keys.map Naming.flat).Nodup → Serves g t a b →
          OwnTable definitions a.name b.name) := by
  obtain ⟨xs, made⟩ := @exists_made files _ _ _ _ built read unique
  intro entry member many
  obtain ⟨l, e, f, joining, isSource, isTarget, isMade, isMade', together, isTable⟩ :=
    joining_of_related (made.related_of_mem member) (Or.inl many)
  obtain ⟨a, thereA, rfl, _⟩ := made.exists_entity isMade
  obtain ⟨b, thereB, rfl, _⟩ := made.exists_entity isMade'
  have nameA : a.name = l.source := (entityOf_eq_ok isMade).2
  have nameB : b.name = l.target := (entityOf_eq_ok isMade').2
  obtain ⟨t, _, _, there, isName, _, _, _, _, columns⟩ := made.exists_joinTable joining
  rw [← isSource, ← isTarget, isTable]
  refine ⟨a, b, t, thereA, nameA, thereB, nameB, together, by rw [isName], by rw [isName, there],
    ?_, ?_, ?_⟩
  · rw [Entity.label, Entity.label, nameA, nameB, isName]
    rfl
  · rw [nameA, nameB]
    exact fun own => made.serves joining own isMade isMade' together there
  · rw [nameA, nameB]
    intro labels serves
    have perm := serves.columns
    rw [columns, Entity.keyColumn, Entity.keyColumn, Entity.label, Entity.label, nameA, nameB]
      at perm
    exact ownTable_of_columns labels made.checked made.does joining perm

/-- A pair of labels to which no other pair comes has a table of its own. -/
theorem ownTable_of_labels {a b : String} {labels : Table String}
    (labelled : definitions.keys.map (fun name => (name, Naming.flat name)) = labels)
    (different : Naming.flat a ≠ Naming.flat b)
    (apart : ∀ c ∈ labels, ∀ d ∈ labels, JoinTable.nameFor c.2 d.2 = tableName a b →
      sortedPair c.1 d.1 = sortedPair a b) : OwnTable definitions a b := by
  refine ⟨different, ?_⟩
  intro l joining
  have inLabels : ∀ side, side = l.source ∨ side = l.target →
      (side, Naming.flat side) ∈ labels := by
    intro side isSide
    rw [← labelled]
    exact List.mem_map_of_mem (joining.mem_keys isSide)
  exact apart _ (inLabels _ (Or.inl rfl)) _ (inLabels _ (Or.inr rfl)) joining.isTable

/-- The posts and tags of the blog have a table of their own, with a key for each side. -/
theorem blog_joinTable : ∃ g definitions, graph {} blog {} = .ok g ∧
    blog.definitions = .ok definitions ∧ definitions.keys.Nodup ∧
    ∃ entry ∈ g.relationships, entry.relationship.cardinality = .manyToMany ∧
      ∃ a b t, g.entities.get? "Tag" = some a ∧ g.entities.get? "Post" = some b ∧
        g.joinTables.get? "posttag" = some t ∧ Serves g t a b := by
  have run : (graph {} blog {}).toOption.map (fun g => g.relationships.map fun entry =>
      (entry.source, entry.relationship.target, entry.relationship.cardinality)) =
      some [("Post", "Author", .toOne), ("Post", "Tag", .toMany), ("Post", "Post", .toMany),
        ("Tag", "Post", .manyToMany)] := by
    decide +kernel
  have read : blog.definitions.toOption.map (fun definitions =>
      definitions.keys.map fun name => (name, Naming.flat name)) =
      some [("Post", "post"), ("Author", "author"), ("Tag", "tag")] := by
    decide +kernel
  obtain ⟨g, built, relationships⟩ := exists_ok_of_map run
  obtain ⟨definitions, defined, labelled⟩ := exists_ok_of_map read
  have unique : definitions.keys.Nodup := by
    apply List.Nodup.of_map fun name => (name, Naming.flat name)
    rw [labelled]
    decide
  have own : OwnTable definitions "Tag" "Post" :=
    ownTable_of_labels labelled (by decide +kernel) (by decide +kernel)
  have listed : ("Tag", "Post", Cardinality.manyToMany) ∈ g.relationships.map fun entry =>
      (entry.source, entry.relationship.target, entry.relationship.cardinality) := by
    rw [relationships]
    decide
  obtain ⟨entry, member, isEntry⟩ := List.mem_map.mp listed
  simp only [Prod.mk.injEq] at isEntry
  obtain ⟨isSource, isTarget, many⟩ := isEntry
  obtain ⟨a, b, t, thereA, nameA, thereB, nameB, _, _, there, isName, serves, _⟩ :=
    joinTable_serves built defined unique entry member many
  rw [isSource] at thereA nameA
  rw [isTarget] at thereB nameB
  rw [nameA, nameB] at serves
  have isTable : t.name = "posttag" := by
    rw [isName, Entity.label, Entity.label, nameA, nameB]
    decide +kernel
  rw [isTable] at there
  exact ⟨g, definitions, built, defined, unique, entry, member, many, a, b, t, thereA, thereB, there,
    serves own⟩

/-- A list of some definition. -/
private def listOf (name : String) : Json :=
  .object [("type", .string "array"),
    ("items", .object [("$ref", .string ("#/components/schemas/" ++ name))])]

/-- Two pairs whose labels come to the same text, and a pair of one definition. -/
def clubs : Description where
  document := .object [("openapi", .string "3.0.0"), ("components", .object [("schemas", .object [
    ("Ab", .object [("properties", .object [("cs", listOf "C")])]),
    ("C", .object [("properties", .object [("abs", listOf "Ab")])]),
    ("A", .object [("properties", .object [("bcs", listOf "Bc")])]),
    ("Bc", .object [("properties", .object [("as", listOf "A")])]),
    ("Person", .object [("properties", .object [("friends", listOf "Person"),
      ("followers", listOf "Person")])])])])]

/-- The two pairs share a table that carries the keys of both, and the table of the one definition
has a single key. -/
theorem clubs_joinTables : ∃ g, graph {} clubs {} = .ok g ∧
    g.relationships.map (fun entry =>
      (entry.source, entry.relationship.target, entry.relationship.joinTable)) =
      [("Ab", "C", some "abc"), ("C", "Ab", some "abc"), ("A", "Bc", some "abc"),
        ("Bc", "A", some "abc"), ("Person", "Person", some "personperson"),
        ("Person", "Person", some "personperson")] ∧
    g.joinTables.map (fun entry => (entry.1, entry.2.entities, entry.2.columns.keys)) =
      [("abc", ("Ab", "C"), ["ab_id", "c_id", "a_id", "bc_id"]),
        ("personperson", ("Person", "Person"), ["person_id"])] := by
  have run : (graph {} clubs {}).toOption.map (fun g => g.relationships.map fun entry =>
      (entry.source, entry.relationship.target, entry.relationship.joinTable)) =
      some [("Ab", "C", some "abc"), ("C", "Ab", some "abc"), ("A", "Bc", some "abc"),
        ("Bc", "A", some "abc"), ("Person", "Person", some "personperson"),
        ("Person", "Person", some "personperson")] := by
    decide +kernel
  have tables : (graph {} clubs {}).toOption.map (fun g =>
      g.joinTables.map fun entry => (entry.1, entry.2.entities, entry.2.columns.keys)) =
      some [("abc", ("Ab", "C"), ["ab_id", "c_id", "a_id", "bc_id"]),
        ("personperson", ("Person", "Person"), ["person_id"])] := by
    decide +kernel
  obtain ⟨g, built, relationships⟩ := exists_ok_of_map run
  rw [built] at tables
  exact ⟨g, built, relationships, Option.some.inj tables⟩

end ApiGraph.Build
