import ApiGraph.Proofs.Build.Keys

/-! The tables that a build comes to. What a key names is there when the keys are put in place, so
that once all steps have an effect the build of the tables is done (`tables_eq_bound`). Its
entities are those of the definitions, and its join tables those of the links, each the first of
its name; neither has a foreign key but those that links need. -/

namespace ApiGraph.Build

variable {files : FileTree} {source : Source} {s : State} {xs : List Effect}

/-! What an effect records. -/

/-- The keys of an effect name what is there or comes with it, and a join table comes without
columns. -/
structure Effect.Backed (source : Source) (x : Effect) : Prop where
  target : ∀ key ∈ x.keys, key.target ∈ source.definitions.keys
  owner : ∀ key ∈ x.keys, match key.owner with
    | .entity name => name ∈ source.definitions.keys
    | .joinTable name => ∃ t, x.joinTable = some t ∧ t.name = name
  column : ∀ key ∈ x.keys, key.column = Entity.keyColumnFor (Naming.flat key.target)
  joinTable : ∀ t, x.joinTable = some t → t.columns = []

theorem Effect.backed_of_none {x : Effect} (noKeys : x.keys = []) (noJoinTable : x.joinTable = none) :
    x.Backed source where
  target := by simp [noKeys]
  owner := by simp [noKeys]
  column := by simp [noKeys]
  joinTable := by simp [noJoinTable]

/-- A many-to-many link is between entities of one namespace. It asks for the join table that its
keys name, without columns yet. -/
theorem joinTable_of_manyToMany {l : Link} {e f : Entity} {p : Link.Placement}
    (placed : l.placement e f = .ok p) (many : l.cardinality = .manyToMany) :
    e.nameSpace = f.nameSpace ∧ p.joinTable = some
      ⟨JoinTable.nameFor e.label f.label, e.nameSpace, sortedPair l.source l.target, []⟩ := by
  rw [Link.placement] at placed
  simp only [many] at placed
  split at placed
  · cases placed
    exact ⟨‹_›, rfl⟩
  · cases placed

/-- No other link asks for a join table. -/
theorem manyToMany_of_joinTable {l : Link} {e f : Entity} {p : Link.Placement} {t : JoinTable}
    (placed : l.placement e f = .ok p) (joins : p.joinTable = some t) :
    l.cardinality = .manyToMany := by
  rw [Link.placement] at placed
  cases c : l.cardinality with
  | manyToMany => rfl
  | _ =>
    simp only [c, Except.ok.injEq] at placed
    subst placed
    cases joins

theorem Link.effect_backed {l : Link} {x : Effect} (h : l.effect source = .ok x) :
    x.Backed source := by
  obtain ⟨e, f, p, madeSource, madeTarget, placed, rfl⟩ := Link.effect_eq_ok h
  obtain ⟨sourceDefined, isSource⟩ := entityOf_eq_ok madeSource
  obtain ⟨targetDefined, isTarget⟩ := entityOf_eq_ok madeTarget
  have needs := fun key => (mem_keys_iff isSource isTarget placed key).mp
  have target : ∀ key ∈ p.keys, key.target ∈ source.definitions.keys := by
    intro key member
    rcases (needs key member).target with same | same
    · rwa [same]
    · rwa [same]
  have empty : ∀ t, p.joinTable = some t → t.columns = [] := by
    intro t joins
    obtain ⟨_, isTable⟩ := joinTable_of_manyToMany placed (manyToMany_of_joinTable placed joins)
    rw [joins, Option.some.injEq] at isTable
    rw [isTable]
  refine ⟨target, ?_, fun key member => (needs key member).column, empty⟩
  intro key member
  have needed := needs key member
  generalize isCardinality : l.cardinality = c at needed
  cases needed with
  | toOne | manyToOne => exact sourceDefined
  | toMany | oneToMany => exact targetDefined
  | oneToOne sides _ =>
    rcases sides with ⟨rfl, _⟩ | ⟨rfl, _⟩
    · exact sourceDefined
    · exact targetDefined
  | manyToMany _ =>
    obtain ⟨_, joins⟩ := joinTable_of_manyToMany placed isCardinality
    exact ⟨_, joins, by rw [label_of_entityOf madeSource, label_of_entityOf madeTarget]⟩

theorem Mention.effect_backed {m : Mention} {x : Effect} (h : m.effect source = .ok x) :
    x.Backed source := by
  obtain ⟨l, _, h⟩ := bind_eq_ok.mp h
  exact Link.effect_backed h

theorem Member.effect_backed {m : Member} {x : Effect} (h : m.effect files source = .ok x) :
    x.Backed source := by
  obtain ⟨member, _, does⟩ := bind_eq_ok.mp h
  cases does
  exact Effect.backed_of_none rfl rfl

theorem Alternative.effect_backed {a : Alternative} {x : Effect} (h : a.effect source = .ok x) :
    x.Backed source := by
  rw [Alternative.effect] at h
  split at h
  · cases h
    exact Effect.backed_of_none rfl rfl
  · split at h
    · exact Mention.effect_backed h
    · cases h

theorem effects_backed (h : effects files source = .ok xs) : ∀ x ∈ xs, x.Backed source :=
  forall_effects h (fun _ _ _ => Member.effect_backed) (fun _ _ _ => Alternative.effect_backed)
    fun _ _ _ => Mention.effect_backed

/-! Join tables. -/

/-- The join tables of effects, by name. -/
def joinTablesOf (xs : List Effect) : Table JoinTable :=
  xs.filterMap fun x => x.joinTable.map fun t => (t.name, t)

theorem mem_joinTablesOf {name : String} {t : JoinTable} :
    (name, t) ∈ joinTablesOf xs ↔ ∃ x ∈ xs, x.joinTable = some t ∧ t.name = name := by
  simp [joinTablesOf, List.mem_filterMap, and_comm]

theorem joinTables_applyAll (s : State) (xs : List Effect) :
    (applyAll s xs).joinTables = Table.addAll s.joinTables (joinTablesOf xs) := by
  induction xs generalizing s with
  | nil => rfl
  | cons x rest ih =>
    have step := ih (x.apply s)
    rw [applyAll] at step
    rw [applyAll, List.foldl_cons, step, joinTablesOf, joinTablesOf, List.filterMap_cons]
    cases joins : x.joinTable with
    | none =>
      rw [Effect.apply, joins]
      rfl
    | some t =>
      rw [Effect.apply, joins]
      rfl

/-! The state before the keys are put in place. -/

/-- All entities and join tables with their columns and relationships, and the keys that are to be
put in place. -/
def unbound (files : FileTree) (source : Source) (xs : List Effect) : State :=
  applyAll (created source (Resolver.fresh files)) xs

theorem keys_unbound : (unbound files source xs).entities.keys = source.definitions.keys := by
  rw [unbound, keys_applyAll]
  simp [created, Table.keys]

theorem joinTables_unbound :
    (unbound files source xs).joinTables = Table.addAll [] (joinTablesOf xs) :=
  joinTables_applyAll _ xs

theorem keys_joinTables_unbound_nodup : (unbound files source xs).joinTables.keys.Nodup := by
  rw [joinTables_unbound]
  exact Table.keys_addAll_nodup (by simp) _

/-- Every join table is that of an effect. -/
theorem exists_effect_of_joinTable {name : String} {t : JoinTable}
    (there : (unbound files source xs).joinTables.get? name = some t) :
    ∃ x ∈ xs, x.joinTable = some t ∧ t.name = name := by
  rw [joinTables_unbound, Table.get?_addAll] at there
  exact mem_joinTablesOf.mp (Table.mem_of_get?_eq_some there)

/-- The join table of an effect is there, or another one under its name. -/
theorem exists_joinTable_unbound {x : Effect} (isEffect : x ∈ xs) {t : JoinTable}
    (joins : x.joinTable = some t) :
    ∃ first, (unbound files source xs).joinTables.get? t.name = some first := by
  have recorded := mem_joinTablesOf.mpr ⟨x, isEffect, joins, rfl⟩
  obtain ⟨first, found⟩ := Table.mem_keys_iff.mp (List.mem_map_of_mem (f := Prod.fst) recorded)
  exact ⟨first, by rw [joinTables_unbound, Table.get?_addAll, found]; rfl⟩

theorem mem_pending_unbound {key : PendingKey} :
    key ∈ (unbound files source xs).pending ↔ ∃ x ∈ xs, key ∈ x.keys := by
  rw [unbound, mem_pending_applyAll]
  simp [created]

theorem get?_unbound (name : String) : (unbound files source xs).entities.get? name =
    (source.definitions.get? name).map fun schema =>
      changeAll (xs.filter (·.owner = name)) (madeEntity source.options (name, schema)) := by
  have made := Table.get?_map (fun name schema => madeEntity source.options (name, schema))
    source.definitions name
  rw [unbound, get?_applyAll]
  refine (congrArg (Option.map _) made).trans ?_
  rw [Option.map_map]
  rfl

theorem unbound_backs (h : ∀ x ∈ xs, x.Backed source) :
    ∀ key ∈ (unbound files source xs).pending, (unbound files source xs).Backs key := by
  intro key member
  obtain ⟨x, isEffect, isKey⟩ := mem_pending_unbound.mp member
  have backed := h x isEffect
  refine ⟨by rw [keys_unbound]; exact backed.target key isKey, ?_⟩
  have there := backed.owner key isKey
  split
  · rename_i name isOwner
    rw [isOwner] at there
    rw [keys_unbound]
    exact there
  · rename_i name isOwner
    rw [isOwner] at there
    obtain ⟨t, joins, rfl⟩ := there
    exact Table.mem_keys_iff.mpr (exists_joinTable_unbound isEffect joins)

/-- The tables are built exactly if all definitions can be compiled and all steps have an effect. -/
theorem tables_eq_bound (unique : source.definitions.keys.Nodup) :
    match (do checkDefinitions source.definitions; effects files source) with
    | .ok xs => ∃ t, tables source { resolver := Resolver.fresh files } = .ok t ∧
        t.entities = ((unbound files source xs).bound (unbound files source xs).pending).entities ∧
        t.joinTables =
          ((unbound files source xs).bound (unbound files source xs).pending).joinTables
    | .error fault => tables source { resolver := Resolver.fresh files } = .error fault := by
  have law := @tables_eq files _ unique
  cases checks : checkDefinitions source.definitions with
  | error fault =>
    rw [checks] at law
    exact law
  | ok _ =>
    rw [checks] at law
    cases all : effects files source with
    | error fault =>
      rw [all] at law
      exact law
    | ok xs =>
      rw [all] at law
      obtain ⟨r, run⟩ := law
      have backs := @unbound_backs files _ _ (effects_backed all)
      have uniqueEntities : (unbound files source xs).entities.keys.Nodup := by
        rw [keys_unbound]
        exact unique
      refine ⟨_, run.trans (bindKeys_eq (s := (unbound files source xs).withResolver r)
        uniqueEntities keys_joinTables_unbound_nodup ?_), rfl, rfl⟩
      exact fun key member => ⟨(backs key member).target, (backs key member).owner⟩

/-- What was done when the tables are built. -/
theorem tables_eq_ok (unique : source.definitions.keys.Nodup) {t : State}
    (built : tables source { resolver := Resolver.fresh files } = .ok t) :
    checkDefinitions source.definitions = .ok () ∧ ∃ xs, effects files source = .ok xs ∧
      t.entities = ((unbound files source xs).bound (unbound files source xs).pending).entities ∧
      t.joinTables =
        ((unbound files source xs).bound (unbound files source xs).pending).joinTables := by
  have law := @tables_eq_bound files source unique
  cases checked : checkDefinitions source.definitions with
  | error fault =>
    rw [checked, built] at law
    cases law
  | ok _ =>
    cases does : effects files source with
    | error fault =>
      rw [checked, ok_bind, does, built] at law
      cases law
    | ok xs =>
      rw [checked, ok_bind, does] at law
      obtain ⟨t', built', entities, joinTables⟩ := law
      obtain rfl := Except.ok.inj (built.symm.trans built')
      exact ⟨rfl, xs, rfl, entities, joinTables⟩

/-! The state with all keys in place. -/

theorem keys_entities_bound :
    ((unbound files source xs).bound (unbound files source xs).pending).entities.keys =
      source.definitions.keys := by
  rw [keys_bound_entities, keys_unbound]

theorem keys_joinTables_bound_nodup :
    ((unbound files source xs).bound (unbound files source xs).pending).joinTables.keys.Nodup := by
  rw [keys_bound_joinTables]
  exact keys_joinTables_unbound_nodup

/-- The entities are those of the definitions, up to their columns and relationships. -/
theorem bare_entities (h : effects files source = .ok xs) (name : String) :
    (((unbound files source xs).bound (unbound files source xs).pending).entities.get? name).map
        Entity.bare =
      (source.definitions.get? name).map (Entity.ofDefinition name · source.options) := by
  rw [get?_bound_entities, get?_unbound, Option.map_map, Option.map_map]
  congr 1
  funext schema
  have mild : ∀ x ∈ xs.filter (·.owner = name), x.Mild :=
    fun x member => effects_mild h x (List.mem_filter.mp member).1
  exact (bare_changeAll mild _).trans (bare_addScalarColumns _ _ _)

end ApiGraph.Build
