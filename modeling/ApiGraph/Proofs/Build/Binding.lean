import ApiGraph.Proofs.Build.Tables
import ApiGraph.Proofs.Table.Order

/-! Putting keys in place touches nothing but keys. Columns that are there keep their places and all
but the key; under new names follow key columns, in the order in which the pending keys first name
them, and of several keys under one name the last one counts (`binds_bindAll`). So it is for every
entity and join table, if what the keys name is there, and it is there once all links are placed
(`bindKeys_binds`). -/

namespace ApiGraph.Build

variable {files : FileTree} {source : Source} {s : State} {reference : String → String}
  {keys : List PendingKey} {columns : Table Column}

/-- The last of the keys under a name. -/
def lastKey? (keys : List PendingKey) (name : String) : Option PendingKey :=
  (keys.filter (·.column = name)).getLast?

/-- The columns afterwards are those from before with the keys in place. -/
structure Binds (reference : String → String) (keys : List PendingKey)
    (before after : Table Column) : Prop where
  /-- What is new stands behind, in the order of first mention. -/
  names : after.keys = before.keys ++
    ((keys.map (·.column)).filter (· ∉ before.keys)).eraseDups
  old : ∀ name column, before.get? name = some column →
    ∃ foreignKey, after.get? name = some { column with foreignKey }
  new : ∀ name column, after.get? name = some column → name ∉ before.keys →
    column = { type := .string, nullable := true, maxLength := some 36,
               foreignKey := column.foreignKey }
  foreignKey : ∀ name column, after.get? name = some column → column.foreignKey =
    (((lastKey? keys name).map fun key => reference key.target) <|>
      (before.get? name).bind (·.foreignKey))

/-- What the keys name is there, and no two tables have one name. -/
structure State.Bindable (s : State) : Prop where
  entities : s.entities.keys.Nodup
  joinTables : s.joinTables.keys.Nodup
  backs : ∀ key ∈ s.pending, s.Backs key

/-- The state afterwards is that from before with the pending keys in place. -/
structure State.BindsAll (before after : State) : Prop where
  pending : after.pending = []
  resolver : after.resolver = before.resolver
  entities : after.entities.keys = before.entities.keys
  joinTables : after.joinTables.keys = before.joinTables.keys
  entity : ∀ name e, before.entities.get? name = some e →
    ∃ columns, after.entities.get? name = some { e with columns } ∧
      Binds before.reference (keysOf (.entity name) before.pending) e.columns columns
  joinTable : ∀ name t, before.joinTables.get? name = some t →
    ∃ columns, after.joinTables.get? name = some { t with columns } ∧
      Binds before.reference (keysOf (.joinTable name) before.pending) t.columns columns

/-! Columns. -/

theorem lastKey?_concat (keys : List PendingKey) (key : PendingKey) (name : String) :
    lastKey? (keys ++ [key]) name = if key.column = name then some key else lastKey? keys name := by
  by_cases here : key.column = name
  · simp [lastKey?, List.filter_append, here]
  · simp [lastKey?, List.filter_append, here]

theorem bindAll_concat (reference : String → String) (keys : List PendingKey) (key : PendingKey)
    (columns : Table Column) : bindAll reference (keys ++ [key]) columns =
      bindColumn (bindAll reference keys columns) key.column (reference key.target) :=
  bindAll_append reference keys [key] columns

/-- Of the keys under a name the last one is in place. -/
theorem get?_bindAll_eq (reference : String → String) (keys : List PendingKey)
    (columns : Table Column) (name : String) : (bindAll reference keys columns).get? name =
      match lastKey? keys name with
      | some key => some (boundColumn (columns.get? name) (reference key.target))
      | none => columns.get? name := by
  -- From the end, where the last key is.
  induction keys using List.reverseRecOn with
  | nil => rfl
  | append_singleton keys key ih =>
    rw [bindAll_concat, get?_bindColumn, lastKey?_concat]
    by_cases here : key.column = name
    · subst here
      rw [if_pos rfl, if_pos rfl, ih]
      cases lastKey? keys key.column with
      | none => rfl
      | some earlier => exact congrArg some (boundColumn_again _ _ _)
    · rw [if_neg here, if_neg here, ih]

theorem keys_bindColumn (columns : Table Column) (name target : String) :
    (bindColumn columns name target).keys =
      if name ∈ columns.keys then columns.keys else columns.keys ++ [name] := by
  have put : ∀ column, (Table.insert columns name column).keys =
      if name ∈ columns.keys then columns.keys else columns.keys ++ [name] := by
    intro column
    split
    · exact Table.keys_insert_of_mem ‹_› column
    · exact Table.keys_insert_of_not_mem ‹_› column
  rw [bindColumn]
  split
  · exact put _
  · exact put _

theorem keys_bindAll (reference : String → String) (keys : List PendingKey)
    (columns : Table Column) : (bindAll reference keys columns).keys =
      columns.keys ++ ((keys.map (·.column)).filter (· ∉ columns.keys)).eraseDups := by
  induction keys using List.reverseRecOn with
  | nil => simp [bindAll]
  | append_singleton keys key ih =>
    rw [bindAll_concat, keys_bindColumn, ih, List.map_append, List.filter_append,
      List.eraseDups_append, List.map_singleton]
    generalize keys.map (·.column) = earlier
    by_cases old : key.column ∈ columns.keys
    · simp [old]
    · by_cases again : key.column ∈ earlier
      · have present : key.column ∈
            columns.keys ++ (earlier.filter (· ∉ columns.keys)).eraseDups := by
          simp [List.mem_eraseDups, old, again]
        rw [if_pos present]
        simp [List.removeAll, old, again]
      · have absent : key.column ∉
            columns.keys ++ (earlier.filter (· ∉ columns.keys)).eraseDups := by
          simp [List.mem_eraseDups, old, again]
        rw [if_neg absent]
        simp [List.removeAll, List.eraseDups_cons, old, again]

theorem binds_bindAll (reference : String → String) (keys : List PendingKey)
    (columns : Table Column) : Binds reference keys columns (bindAll reference keys columns) where
  names := keys_bindAll reference keys columns
  old := by
    intro name column there
    rw [get?_bindAll_eq, there]
    cases lastKey? keys name with
    | none => exact ⟨column.foreignKey, rfl⟩
    | some key => exact ⟨_, rfl⟩
  new := by
    intro name column there isNew
    rw [get?_bindAll_eq, Table.get?_eq_none_iff.mpr isNew] at there
    cases last : lastKey? keys name with
    | none =>
      rw [last] at there
      cases there
    | some key =>
      rw [last] at there
      obtain rfl := Option.some.inj there
      rfl
  foreignKey := by
    intro name column there
    rw [get?_bindAll_eq] at there
    cases last : lastKey? keys name with
    | none =>
      rw [last] at there
      have old : columns.get? name = some column := there
      rw [old]
      rfl
    | some key =>
      rw [last] at there
      obtain rfl := Option.some.inj there
      rfl

/-! States. -/

theorem bindsAll_bound (s : State) : s.BindsAll { s.bound s.pending with pending := [] } where
  pending := rfl
  resolver := rfl
  entities := keys_bound_entities s s.pending
  joinTables := keys_bound_joinTables s s.pending
  entity := by
    intro name e there
    refine ⟨bindAll s.reference (keysOf (.entity name) s.pending) e.columns, ?_,
      binds_bindAll _ _ _⟩
    rw [get?_bound_entities, there]
    rfl
  joinTable := by
    intro name t there
    refine ⟨bindAll s.reference (keysOf (.joinTable name) s.pending) t.columns, ?_,
      binds_bindAll _ _ _⟩
    rw [get?_bound_joinTables, there]
    rfl

/-- Where all links are placed, the state is that of the effects of all steps. -/
theorem exists_unbound (unique : source.definitions.keys.Nodup) {created : State}
    (creates : createEntities source { resolver := Resolver.fresh files } = .ok created)
    (goes : rounds source created = .ok s) :
    ∃ xs r, effects files source = .ok xs ∧ s = (unbound files source xs).withResolver r := by
  rw [createEntities_eq unique] at creates
  obtain ⟨_, _, creates⟩ := bind_eq_ok.mp creates
  obtain rfl := Except.ok.inj creates
  have law := followsAll_rounds (@fits_created _ source _ (Resolver.consistent_fresh files))
  rw [goes] at law
  cases does : effects files source with
  | error fault =>
    rw [does] at law
    cases law
  | ok xs =>
    rw [does] at law
    obtain ⟨r, same, _⟩ := law
    exact ⟨xs, r, rfl, Except.ok.inj same⟩

/-- What the keys of links name is there. -/
theorem bindable_of_rounds (unique : source.definitions.keys.Nodup) {created : State}
    (creates : createEntities source { resolver := Resolver.fresh files } = .ok created)
    (goes : rounds source created = .ok s) : s.Bindable := by
  obtain ⟨xs, r, does, rfl⟩ := exists_unbound unique creates goes
  refine ⟨?_, keys_joinTables_unbound_nodup, fun key pending => ?_⟩
  · have names : (unbound files source xs).entities.keys = source.definitions.keys := keys_unbound
    exact names ▸ unique
  · obtain ⟨target, owner⟩ := unbound_backs (effects_backed does) key pending
    exact ⟨target, owner⟩

/-- **Putting keys in place touches nothing but keys.** It never fails where what the pending keys
name is there, and then every entity and join table has its keys in place and is otherwise as it
was. Once all links of a description are placed, what the pending keys name is there. -/
theorem bindKeys_binds :
    (∀ s : State, s.Bindable → ∃ after, bindKeys s = .ok after ∧ s.BindsAll after) ∧
    ∀ (files : FileTree) (source : Source) (created included expanded s : State),
      source.definitions.keys.Nodup →
      createEntities source { resolver := Resolver.fresh files } = .ok created →
      includeMembers source created = .ok included →
      expandAlternatives source included = .ok expanded →
      placeMentions source expanded = .ok s → s.Bindable := by
  constructor
  · rintro s ⟨uniqueEntities, uniqueJoinTables, backs⟩
    exact ⟨_, bindKeys_eq uniqueEntities uniqueJoinTables backs, bindsAll_bound s⟩
  · intro files source created included expanded s unique creates includes expands places
    refine bindable_of_rounds unique creates ?_
    rw [rounds, includes, ok_bind, expands, ok_bind, places]

/-- A desk between two shelves of one label, with a column where the keys to them go, and with
owners who have desks. -/
def desk : Description where
  document := .object [("components", .object [("schemas", .object [
    ("Desk", .object [("properties", .object [
      ("bookshelf_id", .object [("type", .string "string"), ("maxLength", .nat 8)]),
      ("left", .object [("$ref", .string "#/components/schemas/BookShelf")]),
      ("right", .object [("$ref", .string "#/components/schemas/book-shelf")]),
      ("owners", .object [("type", .string "array"),
        ("items", .object [("$ref", .string "#/components/schemas/Owner")])])])]),
    ("BookShelf", .object [("properties", .object [
      ("height", .object [("type", .string "integer")])])]),
    ("book-shelf", .object [("x-table-name", .string "racks"), ("properties", .object [
      ("width", .object [("type", .string "integer")])])]),
    ("Owner", .object [("properties", .object [
      ("desks", .object [("type", .string "array"),
        ("items", .object [("$ref", .string "#/components/schemas/Desk")])])])])])])]

/-- The column keeps its shape and becomes the key to the second shelf. -/
theorem desk_binds : ∃ source created included expanded s after,
    Source.of desk {} = .ok source ∧
    createEntities source { resolver := Resolver.fresh {} } = .ok created ∧
    includeMembers source created = .ok included ∧
    expandAlternatives source included = .ok expanded ∧
    placeMentions source expanded = .ok s ∧
    s.Bindable ∧ bindKeys s = .ok after ∧ s.BindsAll after ∧
    s.pending.map (·.column) = ["bookshelf_id", "bookshelf_id", "desk_id", "owner_id"] ∧
    s.pending.map (·.target) = ["BookShelf", "book-shelf", "Desk", "Owner"] ∧
    (after.entities.get? "Desk").map Entity.columns = some
      [("bookshelf_id",
        ⟨.string, true, some 8, some "default.racks.identifier", none, none, none⟩)] ∧
    (after.joinTables.get? "deskowner").map JoinTable.columns = some
      [("desk_id", .key "default.desks.identifier"),
        ("owner_id", .key "default.owners.identifier")] := by
  have run : (Source.of desk {} >>= fun source =>
      createEntities source { resolver := Resolver.fresh {} } >>= fun created =>
        includeMembers source created >>= fun included =>
          expandAlternatives source included >>= fun expanded =>
            placeMentions source expanded >>= fun s =>
              bindKeys s >>= fun after => Except.ok (source, s, after)).toOption.map
      (fun (source, s, after) =>
        ([source.definitions.keys, s.pending.map (·.column), s.pending.map (·.target)],
          [(after.entities.get? "Desk").map Entity.columns,
            (after.joinTables.get? "deskowner").map JoinTable.columns])) =
      some ([["Desk", "BookShelf", "book-shelf", "Owner"],
          ["bookshelf_id", "bookshelf_id", "desk_id", "owner_id"],
          ["BookShelf", "book-shelf", "Desk", "Owner"]],
        [some [("bookshelf_id",
            ⟨.string, true, some 8, some "default.racks.identifier", none, none, none⟩)],
          some [("desk_id", .key "default.desks.identifier"),
            ("owner_id", .key "default.owners.identifier")]]) := by
    decide +kernel
  obtain ⟨_, run, shape⟩ := exists_ok_of_map run
  obtain ⟨source, isSource, run⟩ := bind_eq_ok.mp run
  obtain ⟨created, creates, run⟩ := bind_eq_ok.mp run
  obtain ⟨included, includes, run⟩ := bind_eq_ok.mp run
  obtain ⟨expanded, expands, run⟩ := bind_eq_ok.mp run
  obtain ⟨s, places, run⟩ := bind_eq_ok.mp run
  obtain ⟨after, binds, ⟨⟩⟩ := bind_eq_ok.mp run
  obtain ⟨lists, shape⟩ := Prod.mk.inj shape
  obtain ⟨names, lists⟩ := List.cons.inj lists
  obtain ⟨pending, lists⟩ := List.cons.inj lists
  obtain ⟨targets, _⟩ := List.cons.inj lists
  obtain ⟨columns, shape⟩ := List.cons.inj shape
  obtain ⟨joinColumns, _⟩ := List.cons.inj shape
  have bindable : s.Bindable := bindKeys_binds.2 {} source created included expanded s
    (names ▸ by decide) creates includes expands places
  obtain ⟨same, bound, all⟩ := bindKeys_binds.1 s bindable
  obtain rfl := Except.ok.inj (bound.symm.trans binds)
  exact ⟨source, created, included, expanded, s, same, isSource, creates, includes, expands,
    places, bindable, bound, all, pending, targets, columns, joinColumns⟩

end ApiGraph.Build
