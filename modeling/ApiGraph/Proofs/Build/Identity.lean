import ApiGraph.Proofs.Build.Consistency

/-! Generated names as identifiers. A key column is called after the label of the entity that it
points at and holds the name of its table, and both are made from what is authored. What is in place
for a key is always one of the keys that links need there (`Made.exists_inPlace`), but it may be the
one to another entity. The names identify one entity each, and every key is in place, exactly if the
definitions tell each other apart (`identifying_iff`). -/

namespace ApiGraph.Build

variable {files : FileTree} {source : Source} {definitions : Table Schema} {xs : List Effect}
  {g : Graph}

/-! Names of tables. -/

theorem join_eq_join_iff {α : Type} {dot : α} {as bs cs ds : List α} :
    as ++ dot :: bs = cs ++ dot :: ds ↔ (as = cs ∧ bs = ds) ∨
      (∃ part, as = cs ++ dot :: part ∧ ds = part ++ dot :: bs) ∨
      ∃ part, cs = as ++ dot :: part ∧ bs = part ++ dot :: ds := by
  constructor
  · intro same
    rcases List.append_eq_append_iff.mp same with ⟨rest, rfl, isRest⟩ | ⟨rest, rfl, isRest⟩
    · cases rest with
      | nil => exact Or.inl ⟨by simp, (List.cons.inj isRest).2⟩
      | cons first part =>
        obtain ⟨rfl, rfl⟩ := List.cons.inj isRest
        exact Or.inr (Or.inr ⟨part, rfl, rfl⟩)
    · cases rest with
      | nil => exact Or.inl ⟨by simp, (List.cons.inj isRest).2.symm⟩
      | cons first part =>
        obtain ⟨rfl, rfl⟩ := List.cons.inj isRest
        exact Or.inr (Or.inl ⟨part, rfl, rfl⟩)
  · rintro (⟨rfl, rfl⟩ | ⟨part, rfl, rfl⟩ | ⟨part, rfl, rfl⟩)
    · rfl
    · simp
    · simp

/-- The tables of two entities are named alike: the namespace and the name are the same, or one
namespace goes on where the name of the other table begins. -/
def NamedAlike (a b : Entity) : Prop :=
  (a.nameSpace = b.nameSpace ∧ a.tableName = b.tableName) ∨
  (∃ part, a.nameSpace = b.nameSpace ++ "." ++ part ∧ b.tableName = part ++ "." ++ a.tableName) ∨
  ∃ part, b.nameSpace = a.nameSpace ++ "." ++ part ∧ a.tableName = part ++ "." ++ b.tableName

theorem exists_part_iff {s t u v : String} :
    (∃ part, s = t ++ "." ++ part ∧ u = part ++ "." ++ v) ↔
      ∃ part, s.toList = t.toList ++ '.' :: part ∧ u.toList = part ++ '.' :: v.toList := by
  constructor
  · rintro ⟨part, rfl, rfl⟩
    exact ⟨part.toList, by simp, by simp⟩
  · rintro ⟨part, isFirst, isSecond⟩
    refine ⟨String.ofList part, ?_, ?_⟩
    · rw [← String.toList_inj, isFirst]
      simp
    · rw [← String.toList_inj, isSecond]
      simp

/-- Under one primary key, entities are referenced alike exactly if their tables are named alike. -/
theorem foreignKeyTarget_eq_iff {a b : Entity} (key : a.primaryKey = b.primaryKey) :
    a.foreignKeyTarget = b.foreignKeyTarget ↔ NamedAlike a b := by
  have joined (e : Entity) : e.foreignKeyTarget.toList =
      (e.nameSpace.toList ++ '.' :: e.tableName.toList) ++ '.' :: e.primaryKey.toList := by
    simp [Entity.foreignKeyTarget]
  rw [← String.toList_inj, joined, joined, key, List.append_cancel_right_eq, join_eq_join_iff,
    NamedAlike, exists_part_iff, exists_part_iff, String.toList_inj, String.toList_inj]

/-! What is in place for a key. -/

/-- A key that a link of the definitions needs. -/
def Needed (definitions : Table Schema) (key : PendingKey) : Prop :=
  ∃ (l : Link) (schema : Schema), l.IsOf definitions schema ∧ l.Needs l.cardinality key

/-- Under the name of a key stands a reference to the entity that it points at. -/
def InPlace (g : Graph) (key : PendingKey) : Prop :=
  ∃ e columns, g.entities.get? key.target = some e ∧
    columnsOf g.entities g.joinTables key.owner = some columns ∧
    (key.column, e.foreignKeyTarget) ∈ foreignKeyColumns columns

/-- Two keys come to the same column of the same table. -/
def SamePlace (key other : PendingKey) : Prop :=
  key.owner = other.owner ∧ key.column = other.column

namespace Made

theorem joinTables_nodup (made : Made files source xs g) : g.joinTables.keys.Nodup := by
  rw [made.joinTables]
  exact keys_joinTables_bound_nodup

theorem mem_pending_iff (made : Made files source xs g) {key : PendingKey} :
    key ∈ (unbound files source xs).pending ↔ Needed source.definitions key :=
  mem_pending_unbound.trans (mem_keys_iff_needs made.checked made.does)

/-- The columns of a table are those from before, with its keys in place. -/
theorem columnsOf_eq (made : Made files source xs g) (owner : KeyOwner) :
    columnsOf g.entities g.joinTables owner =
      (columnsOf (unbound files source xs).entities (unbound files source xs).joinTables owner).map
        (bindAll (unbound files source xs).reference
          (keysOf owner (unbound files source xs).pending)) := by
  rw [made.entities, made.joinTables, columnsOf_bound]

theorem columns_nodup (made : Made files source xs g) {owner : KeyOwner} {columns : Table Column}
    (there : columnsOf g.entities g.joinTables owner = some columns) : columns.keys.Nodup := by
  rw [made.columnsOf_eq] at there
  obtain ⟨before, found, rfl⟩ := Option.map_eq_some_iff.mp there
  exact keys_bindAll_nodup _ _ (clean_columnsOf made.does found).unique

/-- A needed key points at an entity of the graph. -/
theorem exists_target (made : Made files source xs g) {key : PendingKey}
    (needed : Needed source.definitions key) : ∃ e, g.entities.get? key.target = some e ∧
      e.keyColumn = key.column ∧
      e.foreignKeyTarget = (unbound files source xs).reference key.target := by
  obtain ⟨e, there, references⟩ :=
    exists_referenced (effects_backed made.does) (made.mem_pending_iff.mpr needed)
  rw [← made.entities] at there
  obtain ⟨_, _, _, needs⟩ := needed
  exact ⟨e, there, by rw [needs.column, Entity.keyColumn, Entity.label, made.name_eq there],
    references⟩

/-- A foreign key of the graph is a key that some link needs, by both names. -/
theorem exists_needed (made : Made files source xs g) {owner : KeyOwner} {columns : Table Column}
    (there : columnsOf g.entities g.joinTables owner = some columns) {column target : String}
    (isKey : (column, target) ∈ foreignKeyColumns columns) :
    ∃ key e, Needed source.definitions key ∧ key.owner = owner ∧ key.column = column ∧
      g.entities.get? key.target = some e ∧ e.keyColumn = column ∧ e.foreignKeyTarget = target := by
  rw [made.columnsOf_eq] at there
  obtain ⟨before, found, rfl⟩ := Option.map_eq_some_iff.mp there
  obtain ⟨key, member, rfl, rfl⟩ :=
    exists_of_mem_foreignKeyColumns_bindAll (clean_columnsOf made.does found) isKey
  obtain ⟨isPending, isOwner⟩ := mem_keysOf.mp member
  have needed := made.mem_pending_iff.mp isPending
  obtain ⟨e, isTarget, isColumn, references⟩ := made.exists_target needed
  exact ⟨key, e, needed, isOwner, rfl, isTarget, isColumn, references⟩

/-- At the place of a needed key, one of the keys that are needed there is in place. -/
theorem exists_inPlace (made : Made files source xs g) {key : PendingKey}
    (needed : Needed source.definitions key) :
    ∃ other, Needed source.definitions other ∧ SamePlace other key ∧ InPlace g other := by
  have isPending := made.mem_pending_iff.mpr needed
  obtain ⟨before, found⟩ :=
    (unbound_backs (effects_backed made.does) key isPending).exists_columns
  obtain ⟨other, member, sameColumn, isKey⟩ :=
    exists_mem_foreignKeyColumns_bindAll (unbound files source xs).reference
      (clean_columnsOf made.does found).unique (mem_keysOf.mpr ⟨isPending, rfl⟩)
  obtain ⟨isPending', sameOwner⟩ := mem_keysOf.mp member
  have needed' := made.mem_pending_iff.mp isPending'
  obtain ⟨e, isTarget, _, references⟩ := made.exists_target needed'
  have bound := made.columnsOf_eq other.owner
  rw [sameOwner, found, Option.map_some, ← sameOwner] at bound
  refine ⟨other, needed', ⟨sameOwner, sameColumn⟩, e, _, isTarget, bound, ?_⟩
  rwa [sameColumn, references, sameOwner]

/-- Of the keys that come to one place, those to one table are in place. -/
theorem inPlace_iff (made : Made files source xs g) :
    (∀ key, Needed source.definitions key → InPlace g key) ↔
      ∀ key other, Needed source.definitions key → Needed source.definitions other →
        SamePlace key other → ∀ e f, g.entities.get? key.target = some e →
          g.entities.get? other.target = some f → e.foreignKeyTarget = f.foreignKeyTarget := by
  constructor
  · rintro kept key other needed needed' ⟨sameOwner, sameColumn⟩ e f isTarget isTarget'
    obtain ⟨e', columns, there, found, isKey⟩ := kept key needed
    obtain ⟨f', columns', there', found', isKey'⟩ := kept other needed'
    rw [isTarget, Option.some.injEq] at there
    rw [isTarget', Option.some.injEq] at there'
    rw [sameOwner, found', Option.some.injEq] at found
    subst there there' found
    obtain ⟨column, held, references⟩ := (mem_foreignKeyColumns (made.columns_nodup found')).mp isKey
    obtain ⟨column', held', references'⟩ :=
      (mem_foreignKeyColumns (made.columns_nodup found')).mp isKey'
    rw [sameColumn, held', Option.some.injEq] at held
    rw [← held, references'] at references
    exact (Option.some.inj references).symm
  · intro agree key needed
    obtain ⟨other, needed', same, f, columns, isTarget', found, isKey⟩ := made.exists_inPlace needed
    obtain ⟨e, isTarget, _, _⟩ := made.exists_target needed
    refine ⟨e, columns, isTarget, by rw [← same.1, found], ?_⟩
    rwa [← same.2, ← agree other key needed' needed same f e isTarget' isTarget]

theorem mem_entities_iff (made : Made files source xs g) {name : String} {e : Entity} :
    (name, e) ∈ g.entities ↔ g.entities.get? name = some e :=
  (Table.get?_eq_some_iff made.entities_nodup).symm

theorem label_eq (made : Made files source xs g) {entry : String × Entity}
    (member : entry ∈ g.entities) : entry.2.label = Naming.flat entry.1 := by
  rw [Entity.label, made.name_eq (made.mem_entities_iff.mp member)]

/-- An entity is made of the definition of its name. -/
theorem exists_definition (made : Made files source xs g) {entry : String × Entity}
    (member : entry ∈ g.entities) : ∃ schema, (entry.1, schema) ∈ source.definitions ∧
      entry.2.bare = Entity.ofDefinition entry.1 schema source.options := by
  have bare := bare_entities made.does entry.1
  rw [← made.entities, made.mem_entities_iff.mp member, Option.map_some] at bare
  obtain ⟨schema, defined, isMade⟩ := Option.map_eq_some_iff.mp bare.symm
  exact ⟨schema, Table.mem_of_get?_eq_some defined, isMade.symm⟩

theorem exists_entity_of_mem (made : Made files source xs g) {entry : String × Schema}
    (member : entry ∈ source.definitions) : ∃ e, (entry.1, e) ∈ g.entities ∧
      e.bare = Entity.ofDefinition entry.1 entry.2 source.options := by
  have bare := bare_entities made.does entry.1
  rw [← made.entities, (Table.get?_eq_some_iff made.unique).mpr member, Option.map_some] at bare
  obtain ⟨e, there, isMade⟩ := Option.map_eq_some_iff.mp bare
  exact ⟨e, made.mem_entities_iff.mpr there, isMade⟩

end Made

/-! What the names stand for. -/

/-- Each generated name stands for one entity, and no key takes the place of another one. -/
structure Identifying (definitions : Table Schema) (g : Graph) : Prop where
  label : ∀ a ∈ g.entities, ∀ b ∈ g.entities, a.2.label = b.2.label → a.1 = b.1
  reference : ∀ a ∈ g.entities, ∀ b ∈ g.entities,
    a.2.foreignKeyTarget = b.2.foreignKeyTarget → a.1 = b.1
  /-- One entity has the name of a key column for the keys to it. -/
  column : ∀ key ∈ g.foreignKeys, ∃! name, ∃ e, (name, e) ∈ g.entities ∧ e.keyColumn = key.column
  /-- One entity is what a key column references. -/
  target : ∀ key ∈ g.foreignKeys, ∃! name, ∃ e, (name, e) ∈ g.entities ∧
    e.foreignKeyTarget = key.target
  /-- The keys that come to one place point at one entity. -/
  alone : ∀ key other, Needed definitions key → Needed definitions other → SamePlace key other →
    key.target = other.target
  kept : ∀ key, Needed definitions key → InPlace g key

/-- The names of different definitions are told apart when words are joined in lower case, and their
tables are not named alike. -/
structure ToldApart (options : Options) (definitions : Table Schema) : Prop where
  labels : ∀ a ∈ definitions, ∀ b ∈ definitions, Naming.flat a.1 = Naming.flat b.1 → a.1 = b.1
  tables : ∀ a ∈ definitions, ∀ b ∈ definitions,
    NamedAlike (Entity.ofDefinition a.1 a.2 options) (Entity.ofDefinition b.1 b.2 options) →
      a.1 = b.1

theorem references_ofDefinition_iff {name name' : String} {schema schema' : Schema}
    {options : Options} : (Entity.ofDefinition name schema options).foreignKeyTarget =
        (Entity.ofDefinition name' schema' options).foreignKeyTarget ↔
      NamedAlike (Entity.ofDefinition name schema options)
        (Entity.ofDefinition name' schema' options) := by
  apply foreignKeyTarget_eq_iff
  rw [Entity.ofDefinition, Entity.ofDefinition]

theorem toldApart_iff {options : Options} {definitions : Table Schema} :
    ToldApart options definitions ↔
      (∀ a ∈ definitions, ∀ b ∈ definitions, Naming.flat a.1 = Naming.flat b.1 → a.1 = b.1) ∧
      ∀ a ∈ definitions, ∀ b ∈ definitions,
        (Entity.ofDefinition a.1 a.2 options).foreignKeyTarget =
          (Entity.ofDefinition b.1 b.2 options).foreignKeyTarget → a.1 = b.1 := by
  simp only [references_ofDefinition_iff]
  exact ⟨fun apart => ⟨apart.labels, apart.tables⟩, fun ⟨labels, tables⟩ => ⟨labels, tables⟩⟩

instance (options : Options) (definitions : Table Schema) :
    Decidable (ToldApart options definitions) := decidable_of_iff _ toldApart_iff.symm

/-- Entities are referenced alike as the definitions say that they are made of. -/
theorem references_eq_iff {e f : Entity} {name name' : String} {schema schema' : Schema}
    {options : Options} (isMade : e.bare = Entity.ofDefinition name schema options)
    (isMade' : f.bare = Entity.ofDefinition name' schema' options) :
    e.foreignKeyTarget = f.foreignKeyTarget ↔
      NamedAlike (Entity.ofDefinition name schema options)
        (Entity.ofDefinition name' schema' options) := by
  rw [← references_ofDefinition_iff, ← isMade, ← isMade']
  rfl

namespace Made

theorem toldApart (made : Made files source xs g)
    (identifying : Identifying source.definitions g) :
    ToldApart source.options source.definitions := by
  constructor
  · intro a member b member' same
    obtain ⟨e, there, _⟩ := made.exists_entity_of_mem member
    obtain ⟨f, there', _⟩ := made.exists_entity_of_mem member'
    refine identifying.label _ there _ there' ?_
    rw [made.label_eq there, made.label_eq there', same]
  · intro a member b member' alike
    obtain ⟨e, there, isMade⟩ := made.exists_entity_of_mem member
    obtain ⟨f, there', isMade'⟩ := made.exists_entity_of_mem member'
    exact identifying.reference _ there _ there' ((references_eq_iff isMade isMade').mpr alike)

theorem label_unique (made : Made files source xs g)
    (apart : ToldApart source.options source.definitions) :
    ∀ a ∈ g.entities, ∀ b ∈ g.entities, a.2.label = b.2.label → a.1 = b.1 := by
  intro a member b member' same
  obtain ⟨schema, defined, _⟩ := made.exists_definition member
  obtain ⟨schema', defined', _⟩ := made.exists_definition member'
  rw [made.label_eq member, made.label_eq member'] at same
  exact apart.labels _ defined _ defined' same

theorem reference_unique (made : Made files source xs g)
    (apart : ToldApart source.options source.definitions) :
    ∀ a ∈ g.entities, ∀ b ∈ g.entities,
      a.2.foreignKeyTarget = b.2.foreignKeyTarget → a.1 = b.1 := by
  intro a member b member' same
  obtain ⟨schema, defined, isMade⟩ := made.exists_definition member
  obtain ⟨schema', defined', isMade'⟩ := made.exists_definition member'
  exact apart.tables _ defined _ defined' ((references_eq_iff isMade isMade').mp same)

/-- A foreign key of the graph stands for some entity, by both names. -/
theorem exists_standsFor (made : Made files source xs g) {key : ForeignKey}
    (member : key ∈ g.foreignKeys) : ∃ name e, (name, e) ∈ g.entities ∧
      e.keyColumn = key.column ∧ e.foreignKeyTarget = key.target := by
  obtain ⟨owner, columns, found, _, isKey⟩ :=
    (mem_foreignKeys_iff_columns made.entities_nodup made.joinTables_nodup).mp member
  obtain ⟨needed, e, _, _, _, isTarget, isColumn, references⟩ := made.exists_needed found isKey
  exact ⟨needed.target, e, made.mem_entities_iff.mpr isTarget, isColumn, references⟩

theorem identifying (made : Made files source xs g)
    (apart : ToldApart source.options source.definitions) :
    Identifying source.definitions g := by
  have label := made.label_unique apart
  have keyColumn {a b : String × Entity} (member : a ∈ g.entities) (member' : b ∈ g.entities)
      (same : a.2.keyColumn = b.2.keyColumn) : a.1 = b.1 :=
    label a member b member' (keyColumnFor_injective same)
  have alone : ∀ key other, Needed source.definitions key → Needed source.definitions other →
      SamePlace key other → key.target = other.target := by
    intro key other needed needed' same
    obtain ⟨e, isTarget, isColumn, _⟩ := made.exists_target needed
    obtain ⟨f, isTarget', isColumn', _⟩ := made.exists_target needed'
    rw [← made.mem_entities_iff] at isTarget isTarget'
    exact keyColumn isTarget isTarget' (isColumn.trans (same.2.trans isColumn'.symm))
  refine ⟨label, made.reference_unique apart, ?_, ?_, alone, ?_⟩
  · intro key member
    obtain ⟨name, e, isEntity, isColumn, _⟩ := made.exists_standsFor member
    refine ⟨name, ⟨e, isEntity, isColumn⟩, ?_⟩
    rintro other ⟨f, isEntity', isColumn'⟩
    exact keyColumn isEntity' isEntity (isColumn'.trans isColumn.symm)
  · intro key member
    obtain ⟨name, e, isEntity, _, references⟩ := made.exists_standsFor member
    refine ⟨name, ⟨e, isEntity, references⟩, ?_⟩
    rintro other ⟨f, isEntity', references'⟩
    exact made.reference_unique apart _ isEntity' _ isEntity (references'.trans references.symm)
  · refine made.inPlace_iff.mpr fun key other needed needed' same e f isTarget isTarget' => ?_
    rw [alone key other needed needed' same, isTarget', Option.some.injEq] at isTarget
    rw [isTarget]

end Made

/-- A foreign key of a graph is a key that a link needs, and where a link needs a key, one of the
keys that are needed there is in place. No key has lost its place to one to another table exactly if
the keys that come to one place are to tables of one name; and all names identify one entity exactly
if the definitions are told apart. -/
theorem identifying_iff {d : Description} {options : Options}
    (built : graph files d options = .ok g) (read : d.definitions = .ok definitions)
    (unique : definitions.keys.Nodup) :
    (∀ owner columns column target, columnsOf g.entities g.joinTables owner = some columns →
      (column, target) ∈ foreignKeyColumns columns →
        ∃ key e, Needed definitions key ∧ key.owner = owner ∧ key.column = column ∧
          g.entities.get? key.target = some e ∧ e.keyColumn = column ∧
          e.foreignKeyTarget = target) ∧
    (∀ key, Needed definitions key →
      ∃ other, Needed definitions other ∧ SamePlace other key ∧ InPlace g other) ∧
    ((∀ key, Needed definitions key → InPlace g key) ↔
      ∀ key other, Needed definitions key → Needed definitions other → SamePlace key other →
        ∀ e f, g.entities.get? key.target = some e → g.entities.get? other.target = some f →
          e.foreignKeyTarget = f.foreignKeyTarget) ∧
    (Identifying definitions g ↔ ToldApart options definitions) := by
  obtain ⟨xs, made⟩ := @exists_made files _ _ _ _ built read unique
  exact ⟨fun _ _ _ _ there isKey => made.exists_needed there isKey,
    fun _ needed => made.exists_inPlace needed, made.inPlace_iff, made.toldApart, made.identifying⟩

/-- Every name of the blog identifies one entity. -/
theorem blog_identifying : ∃ g definitions, graph {} blog {} = .ok g ∧
    blog.definitions = .ok definitions ∧ definitions.keys = ["Post", "Author", "Tag"] ∧
    ToldApart {} definitions ∧ Identifying definitions g := by
  have run : (graph {} blog {}).toOption.map (fun g => g.entities.keys) =
      some ["Post", "Author", "Tag"] := by
    decide +kernel
  have read : blog.definitions.toOption.map (fun definitions =>
      (definitions.keys, decide (ToldApart {} definitions))) =
      some (["Post", "Author", "Tag"], true) := by
    decide +kernel
  obtain ⟨g, built, _⟩ := exists_ok_of_map run
  obtain ⟨definitions, defined, seen⟩ := exists_ok_of_map read
  obtain ⟨keys, apart⟩ := Prod.mk.inj seen
  have unique : definitions.keys.Nodup := by
    rw [keys]
    decide
  have apart := of_decide_eq_true apart
  obtain ⟨_, _, _, identifies⟩ := identifying_iff built defined unique
  exact ⟨g, definitions, built, defined, keys, apart, identifies.mpr apart⟩

/-- A basket with two items, whose names differ in case and dashes, and a thing whose table has the
name that the second item declares. -/
def basket : Description where
  document := .object [("openapi", .string "3.0.0"), ("components", .object [("schemas", .object [
    ("Basket", .object [("properties", .object [
      ("first", .object [("$ref", .string "#/components/schemas/GroceryItem")]),
      ("second", .object [("$ref", .string "#/components/schemas/grocery-item")])])]),
    ("GroceryItem", .object [("properties", .object [
      ("name", .object [("type", .string "string")])])]),
    ("grocery-item", .object [("x-table-name", .string "things"), ("properties", .object [
      ("name", .object [("type", .string "string")])])]),
    ("Thing", .object [("properties", .object [
      ("name", .object [("type", .string "string")])])])])])]

/-- Both items have one label, and the second one is referenced like the thing. The one key column
of the basket stands for the second item, so that the key to the first one is lost. -/
theorem basket_not_identifying : ∃ g definitions, graph {} basket {} = .ok g ∧
    basket.definitions = .ok definitions ∧
    (g.entities.map fun entry => (entry.1, entry.2.label, entry.2.foreignKeyTarget)) =
      [("Basket", "basket", "default.baskets.identifier"),
        ("GroceryItem", "groceryitem", "default.groceryitems.identifier"),
        ("grocery-item", "groceryitem", "default.things.identifier"),
        ("Thing", "thing", "default.things.identifier")] ∧
    Needed definitions ⟨.entity "Basket", "groceryitem_id", "GroceryItem"⟩ ∧
    g.foreignKeys = [⟨"Basket", "groceryitem_id", "default.things.identifier"⟩] ∧
    ¬ InPlace g ⟨.entity "Basket", "groceryitem_id", "GroceryItem"⟩ ∧
    ¬ Identifying definitions g := by
  have run : (graph {} basket {}).toOption.map (fun g =>
      (g.entities.map fun entry => (entry.1, entry.2.label, entry.2.foreignKeyTarget),
        g.foreignKeys)) =
      some ([("Basket", "basket", "default.baskets.identifier"),
        ("GroceryItem", "groceryitem", "default.groceryitems.identifier"),
        ("grocery-item", "groceryitem", "default.things.identifier"),
        ("Thing", "thing", "default.things.identifier")],
        [⟨"Basket", "groceryitem_id", "default.things.identifier"⟩]) := by
    decide +kernel
  have read : basket.definitions.toOption.map (fun definitions => (definitions.keys,
      (effects {} ⟨basket, definitions, {}⟩).toOption.map fun xs => xs.flatMap Effect.keys)) =
      some (["Basket", "GroceryItem", "grocery-item", "Thing"],
        some [⟨.entity "Basket", "groceryitem_id", "GroceryItem"⟩,
          ⟨.entity "Basket", "groceryitem_id", "grocery-item"⟩]) := by
    decide +kernel
  obtain ⟨g, built, shown⟩ := exists_ok_of_map run
  obtain ⟨definitions, defined, seen⟩ := exists_ok_of_map read
  obtain ⟨entities, foreignKeys⟩ := Prod.mk.inj shown
  obtain ⟨keys, pending⟩ := Prod.mk.inj seen
  have unique : definitions.keys.Nodup := by
    rw [keys]
    decide
  obtain ⟨xs, made⟩ := @exists_made {} _ _ _ _ built defined unique
  rw [made.does] at pending
  have pending : xs.flatMap Effect.keys = _ := Option.some.inj pending
  have needed : Needed definitions ⟨.entity "Basket", "groceryitem_id", "GroceryItem"⟩ := by
    rw [← made.mem_pending_iff, mem_pending_unbound, ← List.mem_flatMap, pending]
    decide
  have lost : ¬ InPlace g ⟨.entity "Basket", "groceryitem_id", "GroceryItem"⟩ := by
    rintro ⟨e, columns, isTarget, found, isKey⟩
    have isForeignKey : (⟨"Basket", "groceryitem_id", e.foreignKeyTarget⟩ : ForeignKey) ∈
        g.foreignKeys :=
      (mem_foreignKeys_iff_columns made.entities_nodup made.joinTables_nodup).mpr
        ⟨_, columns, found, rfl, isKey⟩
    have isEntity := List.mem_map_of_mem
      (f := fun entry : String × Entity => (entry.1, entry.2.label, entry.2.foreignKeyTarget))
      (made.mem_entities_iff.mpr isTarget)
    rw [entities] at isEntity
    rw [foreignKeys] at isForeignKey
    simp only [List.mem_singleton, ForeignKey.mk.injEq, true_and] at isForeignKey
    simp [isForeignKey] at isEntity
  exact ⟨g, definitions, built, defined, entities, needed, foreignKeys, lost,
    fun identifying => lost (identifying.kept _ needed)⟩

end ApiGraph.Build
