import ApiGraph.Proofs.Build.Columns
import ApiGraph.Proofs.Table.Order

/-! Keys and how they are put in place. A link needs keys by its cardinality (`mem_keys_iff`), and
every key carries the label of the definition that it points at. If what the pending keys name is
there, putting them in place never fails, and it changes nothing but the columns under their names
(`bindKeys_eq`, `get?_bindAll_of_unnamed`). -/

namespace ApiGraph.Build

variable {files : FileTree} {source : Source} {s : State}

/-! The keys of a link. -/

/-- The keys that a link of the given cardinality needs. -/
inductive Link.Needs (l : Link) : Cardinality → PendingKey → Prop
  | toOne : Needs l .toOne
    ⟨.entity l.source, Entity.keyColumnFor (Naming.flat l.target), l.target⟩
  | toMany : Needs l .toMany
    ⟨.entity l.target, Entity.keyColumnFor (Naming.flat l.source), l.source⟩
  | oneToOne {first second : String}
    (sides : first = l.source ∧ second = l.target ∨ first = l.target ∧ second = l.source)
    (sorted : ¬ second < first) :
    Needs l .oneToOne ⟨.entity first, Entity.keyColumnFor (Naming.flat second), second⟩
  | oneToMany : Needs l .oneToMany
    ⟨.entity l.target, Entity.keyColumnFor (Naming.flat l.source), l.source⟩
  | manyToOne : Needs l .manyToOne
    ⟨.entity l.source, Entity.keyColumnFor (Naming.flat l.target), l.target⟩
  | manyToMany {side : String} (isSide : side = l.source ∨ side = l.target) :
    Needs l .manyToMany
      ⟨.joinTable (JoinTable.nameFor (Naming.flat l.source) (Naming.flat l.target)),
        Entity.keyColumnFor (Naming.flat side), side⟩

/-- A key carries the label of what it points at. -/
theorem Link.Needs.column {l : Link} {c : Cardinality} {key : PendingKey} (h : l.Needs c key) :
    key.column = Entity.keyColumnFor (Naming.flat key.target) := by
  cases h <;> rfl

/-- A key points at one of the two sides. -/
theorem Link.Needs.target {l : Link} {c : Cardinality} {key : PendingKey} (h : l.Needs c key) :
    key.target = l.source ∨ key.target = l.target := by
  cases h with
  | toOne | manyToOne => exact Or.inr rfl
  | toMany | oneToMany => exact Or.inl rfl
  | oneToOne sides _ =>
    rcases sides with ⟨_, rfl⟩ | ⟨_, rfl⟩
    · exact Or.inr rfl
    · exact Or.inl rfl
  | manyToMany isSide => exact isSide

theorem sortedPair_cases (a b : String) :
    sortedPair a b = (a, b) ∧ ¬ b < a ∨ sortedPair a b = (b, a) ∧ b < a := by
  rw [sortedPair]
  split
  · exact Or.inr ⟨rfl, ‹_›⟩
  · exact Or.inl ⟨rfl, ‹_›⟩

/-- A one-to-one link needs a single key, from the first of its sides to the second. -/
theorem needs_oneToOne_iff {l : Link} {key : PendingKey} : l.Needs .oneToOne key ↔
    key = ⟨.entity (sortedPair l.source l.target).1,
      Entity.keyColumnFor (Naming.flat (sortedPair l.source l.target).2),
      (sortedPair l.source l.target).2⟩ := by
  rcases sortedPair_cases l.source l.target with ⟨pair, order⟩ | ⟨pair, order⟩
  · rw [pair]
    constructor
    · rintro (_ | _ | ⟨sides, sorted⟩)
      rcases sides with ⟨rfl, rfl⟩ | ⟨rfl, rfl⟩
      · rfl
      · rw [eq_of_not_lt order sorted]
    · rintro rfl
      exact .oneToOne (Or.inl ⟨rfl, rfl⟩) order
  · rw [pair]
    constructor
    · rintro (_ | _ | ⟨sides, sorted⟩)
      rcases sides with ⟨rfl, rfl⟩ | ⟨rfl, rfl⟩
      · exact absurd order sorted
      · rfl
    · rintro rfl
      exact .oneToOne (Or.inr ⟨rfl, rfl⟩) (fun other => String.lt_asymm order other)

theorem entityOf_eq_ok {name : String} {e : Entity} (h : entityOf source name = .ok e) :
    name ∈ source.definitions.keys ∧ e.name = name := by
  rw [entityOf] at h
  split at h
  · cases h
    exact ⟨Table.mem_keys_of_get? ‹_›, rfl⟩
  · cases h

theorem label_of_entityOf {name : String} {e : Entity} (h : entityOf source name = .ok e) :
    e.label = Naming.flat name := by
  rw [Entity.label, (entityOf_eq_ok h).2]

/-- The keys that a link places are those that it needs. -/
theorem mem_keys_iff {l : Link} {e f : Entity} {p : Link.Placement}
    (isSource : e.name = l.source) (isTarget : f.name = l.target)
    (placed : l.placement e f = .ok p) (key : PendingKey) :
    key ∈ p.keys ↔ l.Needs l.cardinality key := by
  have fromSource : e.label = Naming.flat l.source := by rw [Entity.label, isSource]
  have fromTarget : f.label = Naming.flat l.target := by rw [Entity.label, isTarget]
  rw [Link.placement] at placed
  cases c : l.cardinality with
  | toOne | manyToOne =>
    simp only [c, Except.ok.injEq] at placed
    subst placed
    simp only [Link.keyOn, Entity.keyColumn, fromTarget, List.mem_singleton]
    constructor
    · rintro rfl
      constructor
    · rintro ⟨⟩
      rfl
  | toMany | oneToMany =>
    simp only [c, Except.ok.injEq] at placed
    subst placed
    simp only [Link.keyOn, Entity.keyColumn, fromSource, List.mem_singleton]
    constructor
    · rintro rfl
      constructor
    · rintro ⟨⟩
      rfl
  | oneToOne =>
    simp only [c, Except.ok.injEq] at placed
    subst placed
    rw [needs_oneToOne_iff, List.mem_singleton]
    -- The entity at the second place is that of the source if the two have one name.
    have column : (if (sortedPair l.source l.target).2 = l.source then e else f).keyColumn =
        Entity.keyColumnFor (Naming.flat (sortedPair l.source l.target).2) := by
      by_cases same : (sortedPair l.source l.target).2 = l.source
      · rw [if_pos same, same, Entity.keyColumn, fromSource]
      · rw [if_neg same]
        rcases sortedPair_cases l.source l.target with ⟨pair, _⟩ | ⟨pair, _⟩
        · rw [pair, Entity.keyColumn, fromTarget]
        · exact absurd (congrArg Prod.snd pair) same
    rw [Link.keyOn, column]
  | manyToMany =>
    simp only [c] at placed
    split at placed
    · cases placed
      simp only [Entity.keyColumn, fromSource, fromTarget, List.mem_cons, List.not_mem_nil,
        or_false]
      constructor
      · rintro (rfl | rfl)
        · exact .manyToMany (Or.inl rfl)
        · exact .manyToMany (Or.inr rfl)
      · rintro (_ | _ | _ | _ | _ | isSide)
        rcases isSide with rfl | rfl
        · exact Or.inl rfl
        · exact Or.inr rfl
    · cases placed

/-! Columns under keys. -/

/-- The columns with all keys in place, by what each key references. -/
def bindAll (reference : String → String) (keys : List PendingKey) (columns : Table Column) :
    Table Column :=
  keys.foldl (fun columns key => bindColumn columns key.column (reference key.target)) columns

/-- A column as a foreign key, or a new one if there is none. -/
def boundColumn (column : Option Column) (target : String) : Column :=
  { column.getD (.key target) with foreignKey := some target }

/-- A column that is bound again takes the new target. -/
theorem boundColumn_again (column : Option Column) (target other : String) :
    boundColumn (some (boundColumn column target)) other = boundColumn column other := by
  cases column with
  | none => rfl
  | some column => rfl

theorem get?_bindColumn (columns : Table Column) (name target other : String) :
    (bindColumn columns name target).get? other =
      if name = other then some (boundColumn (columns.get? name) target)
      else columns.get? other := by
  rw [bindColumn]
  split
  · rename_i found
    rw [Table.get?_insert, found]
    rfl
  · rename_i found
    rw [Table.get?_insert, found]
    rfl

theorem keys_bindColumn_nodup {columns : Table Column} (unique : columns.keys.Nodup)
    (name target : String) : (bindColumn columns name target).keys.Nodup := by
  rw [bindColumn]
  split
  · exact Table.keys_insert_nodup unique _ _
  · exact Table.keys_insert_nodup unique _ _

theorem keys_bindAll_nodup (reference : String → String) (keys : List PendingKey)
    {columns : Table Column} (unique : columns.keys.Nodup) :
    (bindAll reference keys columns).keys.Nodup := by
  induction keys generalizing columns with
  | nil => exact unique
  | cons key rest ih => exact ih (keys_bindColumn_nodup unique _ _)

/-- Keys under one name all reference the same. -/
def Agree (reference : String → String) (keys : List PendingKey) : Prop :=
  ∀ k ∈ keys, ∀ k' ∈ keys, k.column = k'.column → reference k.target = reference k'.target

/-- A column is as it was if there is no key under its name. Else it is bound to what one of the
keys under its name references. -/
theorem get?_bindAll (reference : String → String) (keys : List PendingKey)
    (columns : Table Column) (name : String) :
    (∀ key ∈ keys, key.column ≠ name) ∧
        (bindAll reference keys columns).get? name = columns.get? name ∨
      ∃ key ∈ keys, key.column = name ∧ (bindAll reference keys columns).get? name =
        some (boundColumn (columns.get? name) (reference key.target)) := by
  induction keys generalizing columns with
  | nil => exact Or.inl ⟨by simp, rfl⟩
  | cons first rest ih =>
    have later := ih (bindColumn columns first.column (reference first.target))
    rw [get?_bindColumn] at later
    by_cases here : first.column = name
    · subst here
      rw [if_pos rfl] at later
      rcases later with ⟨_, same⟩ | ⟨key, isLater, isNamed, bound⟩
      · exact Or.inr ⟨first, by simp, rfl, same⟩
      · rw [boundColumn_again] at bound
        exact Or.inr ⟨key, by simp [isLater], isNamed, bound⟩
    · rw [if_neg here] at later
      rcases later with ⟨unnamed, same⟩ | ⟨key, isLater, isNamed, bound⟩
      · exact Or.inl ⟨by simpa [here] using unnamed, same⟩
      · exact Or.inr ⟨key, by simp [isLater], isNamed, bound⟩

theorem get?_bindAll_of_unnamed {reference : String → String} {keys : List PendingKey}
    {name : String} (unnamed : ∀ key ∈ keys, key.column ≠ name) (columns : Table Column) :
    (bindAll reference keys columns).get? name = columns.get? name := by
  rcases get?_bindAll reference keys columns name with ⟨_, same⟩ | ⟨key, member, isNamed, _⟩
  · exact same
  · exact absurd isNamed (unnamed key member)

theorem get?_bindAll_of_named {reference : String → String} {keys : List PendingKey}
    (agree : Agree reference keys) {key : PendingKey} (member : key ∈ keys)
    (columns : Table Column) : (bindAll reference keys columns).get? key.column =
      some (boundColumn (columns.get? key.column) (reference key.target)) := by
  rcases get?_bindAll reference keys columns key.column with
    ⟨unnamed, _⟩ | ⟨other, member', same, bound⟩
  · exact absurd rfl (unnamed key member)
  · rw [bound, agree other member' key member same]

theorem mem_foreignKeyColumns {columns : Table Column} (unique : columns.keys.Nodup)
    {name target : String} : (name, target) ∈ foreignKeyColumns columns ↔
      ∃ column, columns.get? name = some column ∧ column.foreignKey = some target := by
  simp only [foreignKeyColumns, List.mem_filterMap, Option.map_eq_some_iff, Prod.mk.injEq]
  constructor
  · rintro ⟨⟨other, column⟩, member, found, isKey, rfl, rfl⟩
    exact ⟨column, (Table.get?_eq_some_iff unique).mpr member, isKey⟩
  · rintro ⟨column, there, isKey⟩
    exact ⟨(name, column), (Table.get?_eq_some_iff unique).mp there, target, isKey, rfl, rfl⟩

/-- Of columns without keys, a foreign key afterwards is one of the keys under its name. -/
theorem exists_of_mem_foreignKeyColumns_bindAll {reference : String → String}
    {keys : List PendingKey} {columns : Table Column} (clean : Clean columns)
    {name target : String}
    (isKey : (name, target) ∈ foreignKeyColumns (bindAll reference keys columns)) :
    ∃ key ∈ keys, key.column = name ∧ reference key.target = target := by
  obtain ⟨column, there, isKey⟩ :=
    (mem_foreignKeyColumns (keys_bindAll_nodup reference keys clean.unique)).mp isKey
  rcases get?_bindAll reference keys columns name with ⟨_, same⟩ | ⟨key, member, isNamed, bound⟩
  · rw [clean.keyless name column (same.symm.trans there)] at isKey
    cases isKey
  · rw [there, Option.some.injEq] at bound
    subst bound
    exact ⟨key, member, isNamed, Option.some.inj isKey⟩

/-- Where there is a key under a name, one of those keys is the foreign key afterwards. -/
theorem exists_mem_foreignKeyColumns_bindAll (reference : String → String)
    {keys : List PendingKey} {columns : Table Column} (unique : columns.keys.Nodup)
    {key : PendingKey} (member : key ∈ keys) : ∃ other ∈ keys, other.column = key.column ∧
      (key.column, reference other.target) ∈
        foreignKeyColumns (bindAll reference keys columns) := by
  rcases get?_bindAll reference keys columns key.column with
    ⟨unnamed, _⟩ | ⟨other, member', same, bound⟩
  · exact absurd rfl (unnamed key member)
  · exact ⟨other, member', same,
      (mem_foreignKeyColumns (keys_bindAll_nodup reference keys unique)).mpr ⟨_, bound, rfl⟩⟩

/-- If keys under one name agree, the foreign keys afterwards are the keys. -/
theorem mem_foreignKeyColumns_bindAll {reference : String → String} {keys : List PendingKey}
    (agree : Agree reference keys) {columns : Table Column} (clean : Clean columns)
    {name target : String} : (name, target) ∈ foreignKeyColumns (bindAll reference keys columns) ↔
      ∃ key ∈ keys, key.column = name ∧ reference key.target = target := by
  refine ⟨exists_of_mem_foreignKeyColumns_bindAll clean, ?_⟩
  rintro ⟨key, member, rfl, rfl⟩
  obtain ⟨other, member', same, isKey⟩ :=
    exists_mem_foreignKeyColumns_bindAll reference clean.unique member
  rwa [agree other member' key member same] at isKey

/-! Putting the pending keys in place. -/

/-- What an entity is referenced by. -/
def State.reference (s : State) (name : String) : String :=
  ((s.entities.get? name).map Entity.foreignKeyTarget).getD ""

/-- The table that is to carry a key, and the entity that it points at, are there. -/
structure State.Backs (s : State) (key : PendingKey) : Prop where
  target : key.target ∈ s.entities.keys
  owner : match key.owner with
    | .entity name => name ∈ s.entities.keys
    | .joinTable name => name ∈ s.joinTables.keys

/-- All keys of one table. -/
def keysOf (owner : KeyOwner) (keys : List PendingKey) : List PendingKey :=
  keys.filter (·.owner = owner)

def bindEntity (reference : String → String) (keys : List PendingKey) (name : String)
    (e : Entity) : Entity :=
  { e with columns := bindAll reference (keysOf (.entity name) keys) e.columns }

def bindJoinTable (reference : String → String) (keys : List PendingKey) (name : String)
    (t : JoinTable) : JoinTable :=
  { t with columns := bindAll reference (keysOf (.joinTable name) keys) t.columns }

/-- A state with keys in place. -/
def State.bound (s : State) (keys : List PendingKey) : State where
  entities := s.entities.map fun entry =>
    (entry.1, bindEntity s.reference keys entry.1 entry.2)
  joinTables := s.joinTables.map fun entry =>
    (entry.1, bindJoinTable s.reference keys entry.1 entry.2)
  pending := s.pending
  resolver := s.resolver

theorem map_bindEntity_none {reference : String → String} {keys : List PendingKey}
    (none : ∀ name, keysOf (.entity name) keys = []) (entities : Table Entity) :
    entities.map (fun entry => (entry.1, bindEntity reference keys entry.1 entry.2)) = entities := by
  have unchanged : ∀ name e, bindEntity reference keys name e = e := by
    intro name e
    rw [bindEntity, none]
    rfl
  simp [unchanged]

theorem map_bindJoinTable_none {reference : String → String} {keys : List PendingKey}
    (none : ∀ name, keysOf (.joinTable name) keys = []) (joinTables : Table JoinTable) :
    joinTables.map (fun entry => (entry.1, bindJoinTable reference keys entry.1 entry.2)) =
      joinTables := by
  have unchanged : ∀ name t, bindJoinTable reference keys name t = t := by
    intro name t
    rw [bindJoinTable, none]
    rfl
  simp [unchanged]

/-- One key changes the one table that carries it. -/
theorem bindKey_eq {key : PendingKey} (uniqueEntities : s.entities.keys.Nodup)
    (uniqueJoinTables : s.joinTables.keys.Nodup) (backs : s.Backs key) :
    bindKey s key = .ok (s.bound [key]) := by
  obtain ⟨target, isTarget⟩ := Table.mem_keys_iff.mp backs.target
  have reference : s.reference key.target = target.foreignKeyTarget := by
    rw [State.reference, isTarget]
    rfl
  have there := backs.owner
  obtain ⟨owner, column, name⟩ := key
  cases owner with
  | entity carrier =>
    obtain ⟨e, found⟩ := Table.mem_keys_iff.mp there
    rw [bindKey, isTarget, State.bound, map_bindJoinTable_none (fun _ => by simp [keysOf])]
    refine (modifyEntity_eq ⟨e, found⟩ _).trans ?_
    rw [Table.amend_eq_map uniqueEntities]
    congr 3
    funext entry
    rw [bindEntity]
    by_cases here : carrier = entry.1
    · simp [keysOf, here, bindAll, reference]
    · simp [keysOf, here, Ne.symm here, bindAll]
  | joinTable carrier =>
    obtain ⟨t, found⟩ := Table.mem_keys_iff.mp there
    rw [bindKey, isTarget, State.bound, map_bindEntity_none (fun _ => by simp [keysOf])]
    have amended : ∀ change, Table.insert s.joinTables carrier (change t) =
        Table.amend s.joinTables carrier change := by
      intro change
      rw [Table.amend, found]
    simp only [found]
    rw [amended fun t => { t with columns := bindColumn t.columns column target.foreignKeyTarget },
      Table.amend_eq_map uniqueJoinTables]
    congr 3
    funext entry
    rw [bindJoinTable]
    by_cases here : carrier = entry.1
    · simp [keysOf, here, bindAll, reference]
    · simp [keysOf, here, Ne.symm here, bindAll]

@[simp] theorem keys_bound_entities (s : State) (keys : List PendingKey) :
    (s.bound keys).entities.keys = s.entities.keys := Table.keys_map _ _

@[simp] theorem keys_bound_joinTables (s : State) (keys : List PendingKey) :
    (s.bound keys).joinTables.keys = s.joinTables.keys := Table.keys_map _ _

theorem get?_bound_entities (s : State) (keys : List PendingKey) (name : String) :
    (s.bound keys).entities.get? name =
      (s.entities.get? name).map (bindEntity s.reference keys name) :=
  Table.get?_map (bindEntity s.reference keys) s.entities name

theorem get?_bound_joinTables (s : State) (keys : List PendingKey) (name : String) :
    (s.bound keys).joinTables.get? name =
      (s.joinTables.get? name).map (bindJoinTable s.reference keys name) :=
  Table.get?_map (bindJoinTable s.reference keys) s.joinTables name

/-- The columns of an entity or of a join table. -/
def columnsOf (entities : Table Entity) (joinTables : Table JoinTable) :
    KeyOwner → Option (Table Column)
  | .entity name => (entities.get? name).map Entity.columns
  | .joinTable name => (joinTables.get? name).map JoinTable.columns

/-- A table has its own keys in place. -/
theorem columnsOf_bound (s : State) (keys : List PendingKey) (owner : KeyOwner) :
    columnsOf (s.bound keys).entities (s.bound keys).joinTables owner =
      (columnsOf s.entities s.joinTables owner).map (bindAll s.reference (keysOf owner keys)) := by
  cases owner with
  | entity name =>
    rw [columnsOf, columnsOf, get?_bound_entities, Option.map_map, Option.map_map]
    rfl
  | joinTable name =>
    rw [columnsOf, columnsOf, get?_bound_joinTables, Option.map_map, Option.map_map]
    rfl

theorem State.Backs.exists_columns {key : PendingKey} (backs : s.Backs key) :
    ∃ columns, columnsOf s.entities s.joinTables key.owner = some columns := by
  have there := backs.owner
  cases isOwner : key.owner with
  | entity name =>
    rw [isOwner] at there
    obtain ⟨e, there⟩ := Table.mem_keys_iff.mp there
    exact ⟨e.columns, by rw [columnsOf, there, Option.map_some]⟩
  | joinTable name =>
    rw [isOwner] at there
    obtain ⟨t, there⟩ := Table.mem_keys_iff.mp there
    exact ⟨t.columns, by rw [columnsOf, there, Option.map_some]⟩

/-- What an entity is referenced by does not depend on keys. -/
theorem reference_bound (s : State) (keys : List PendingKey) :
    (s.bound keys).reference = s.reference := by
  funext name
  rw [State.reference, State.reference, get?_bound_entities, Option.map_map]
  rfl

theorem backs_bound {keys : List PendingKey} {key : PendingKey} (backs : s.Backs key) :
    (s.bound keys).Backs key where
  target := by simpa using backs.target
  owner := by simpa using backs.owner

theorem bindAll_append (reference : String → String) (keys more : List PendingKey)
    (columns : Table Column) : bindAll reference (keys ++ more) columns =
      bindAll reference more (bindAll reference keys columns) := List.foldl_append

theorem bound_bound (s : State) (keys more : List PendingKey) :
    (s.bound keys).bound more = s.bound (keys ++ more) := by
  rw [State.bound, reference_bound]
  simp only [State.bound, List.map_map, State.mk.injEq, and_true]
  constructor
  · apply List.map_congr_left
    intro entry _
    simp [bindEntity, keysOf, bindAll_append]
  · apply List.map_congr_left
    intro entry _
    simp [bindJoinTable, keysOf, bindAll_append]

theorem bound_nil (s : State) : s.bound [] = s := by
  rw [State.bound, map_bindEntity_none (fun _ => rfl), map_bindJoinTable_none (fun _ => rfl)]

theorem bindKeys_foldlM {keys : List PendingKey} (uniqueEntities : s.entities.keys.Nodup)
    (uniqueJoinTables : s.joinTables.keys.Nodup) (backs : ∀ key ∈ keys, s.Backs key) :
    keys.foldlM bindKey s = .ok (s.bound keys) := by
  induction keys generalizing s with
  | nil =>
    rw [bound_nil]
    rfl
  | cons key rest ih =>
    have later : ∀ other ∈ rest, (s.bound [key]).Backs other :=
      fun other member => backs_bound (backs other (by simp [member]))
    rw [List.foldlM_cons, bindKey_eq uniqueEntities uniqueJoinTables (backs key (by simp)), ok_bind,
      ih (by simpa using uniqueEntities) (by simpa using uniqueJoinTables) later, bound_bound]
    rfl

/-- If what the pending keys name is there, all of them are put in place. -/
theorem bindKeys_eq (uniqueEntities : s.entities.keys.Nodup)
    (uniqueJoinTables : s.joinTables.keys.Nodup) (backs : ∀ key ∈ s.pending, s.Backs key) :
    bindKeys s = .ok { s.bound s.pending with pending := [] } := by
  have unpend : ∀ key ∈ s.pending, State.Backs { s with pending := [] } key :=
    fun key member => ⟨(backs key member).target, (backs key member).owner⟩
  exact bindKeys_foldlM (s := { s with pending := [] }) uniqueEntities uniqueJoinTables unpend

end ApiGraph.Build
