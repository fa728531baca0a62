import ApiGraph.Proofs.Build.Insertions

/-! Columns and relationships of one name. A relationship supersedes the columns of its name that
are there when it is inserted. An entity has a column and a relationship of one name exactly where
the column comes last, as the key of a link or from a primitive alternative (`shares_name_iff`). -/

namespace ApiGraph.Build

variable {files : FileTree} {source : Source} {definitions : Table Schema} {xs : List Effect}
  {name : String} {schema : Schema} {i later : Insertion}

theorem Insertion.Replaces.trans {last : Insertion} (h : last.Replaces later)
    (h' : later.Replaces i) : last.Replaces i := ⟨h.1.trans h'.1, fun is => h.2 (h'.2 is)⟩

/-- Something stands in the end for all that is inserted: itself or what replaces it. -/
theorem exists_stands {is : List Insertion} (member : i ∈ is) :
    ∃ j, Stands is j ∧ (j = i ∨ j.Replaces i) := by
  induction is using List.reverseRecOn with
  | nil => cases member
  | append_singleton is last ih =>
    have stands : Stands (is ++ [last]) last := stands_concat.mpr (Or.inl rfl)
    rcases List.mem_append.mp member with early | final
    · obtain ⟨j, standsEarlier, same⟩ := ih early
      by_cases replaces : last.Replaces j
      · refine ⟨last, stands, Or.inr ?_⟩
        rcases same with rfl | replaces'
        · exact replaces
        · exact replaces.trans replaces'
      · exact ⟨j, stands_concat.mpr (Or.inr ⟨standsEarlier, replaces⟩), same⟩
    · exact ⟨last, stands, Or.inl (List.mem_singleton.mp final).symm⟩

theorem Shows.mem_keys_relationships {e : Entity} {is : List Insertion} (shows : Shows e is)
    {key : String} : key ∈ e.relationships.keys ↔
      ∃ i ∈ is, i.isRelationship = true ∧ i.name = key := by
  constructor
  · intro member
    obtain ⟨relationship, there⟩ := Table.mem_keys_iff.mp member
    obtain ⟨i, ⟨before, after, split, _⟩, isNamed, isRelationship⟩ :=
      shows.relationship key relationship there
    exact ⟨i, by simp [split], by simp [Insertion.isRelationship, isRelationship], isNamed⟩
  · rintro ⟨i, member, isRelationship, rfl⟩
    obtain ⟨j, stands, same⟩ := exists_stands member
    have replaces : j.name = i.name ∧ j.isRelationship = true := by
      rcases same with rfl | replaces
      · exact ⟨rfl, isRelationship⟩
      · exact ⟨replaces.1, replaces.2 isRelationship⟩
    have held := shows.held j stands
    rw [Insertion.HeldBy] at held
    split at held
    · simp [Insertion.isRelationship, ‹j.content = _›] at replaces
    · rw [replaces.1] at held
      exact Table.mem_keys_of_get? held

/-- A link needs a key column of the given name on an entity. -/
def NeedsKey (definitions : Table Schema) (name key : String) : Prop :=
  ∃ (l : Link) (schema : Schema) (target : String), l.IsOf definitions schema ∧
    l.Needs l.cardinality ⟨.entity name, key, target⟩

theorem Made.mem_keys_columns {g : Graph} (made : Made files source xs g)
    (defined : source.definitions.get? name = some schema) {e : Entity}
    (there : g.entities.get? name = some e) {key : String} : key ∈ e.columns.keys ↔
      (∃ i, Stands (insertions files source name schema) i ∧ i.name = key ∧
        i.isRelationship = false) ∨ NeedsKey source.definitions name key := by
  rw [made.get?_entities_eq defined] at there
  obtain rfl := Option.some.inj there
  refine mem_keys_bindAll.trans (or_congr ?_ ?_)
  · rw [Table.mem_keys_iff]
    constructor
    · rintro ⟨column, found⟩
      obtain ⟨i, stands, isNamed, isColumn⟩ := (get?_columns_insertAll rfl).mp found
      exact ⟨i, stands, isNamed, by simp [Insertion.isRelationship, isColumn]⟩
    · rintro ⟨i, stands, isNamed, notRelationship⟩
      cases content : i.content with
      | column column =>
        exact ⟨column, (get?_columns_insertAll rfl).mpr ⟨i, stands, isNamed, content⟩⟩
      | relationship => simp [Insertion.isRelationship, content] at notRelationship
  · constructor
    · rintro ⟨⟨owner, column, target⟩, member, rfl⟩
      obtain ⟨isPending, rfl⟩ := mem_keysOf.mp member
      obtain ⟨l, schema, isOf, needs⟩ :=
        (mem_keys_iff_needs made.checked made.does).mp (mem_pending_unbound.mp isPending)
      exact ⟨l, schema, target, isOf, needs⟩
    · rintro ⟨l, schema, target, isOf, needs⟩
      refine ⟨⟨.entity name, key, target⟩, mem_keysOf.mpr ⟨?_, rfl⟩, rfl⟩
      exact mem_pending_unbound.mpr
        ((mem_keys_iff_needs made.checked made.does).mpr ⟨l, schema, isOf, needs⟩)

/-- A column that stands although a relationship of its name is inserted comes from an alternative:
the columns of properties come before all relationships, and after the alternatives there are no
columns. -/
theorem site_of_stands_column {relationship : Insertion}
    (member : relationship ∈ insertions files source name schema)
    (isRelationship : relationship.isRelationship = true) (isNamed : relationship.name = i.name)
    (stands : Stands (insertions files source name schema) i)
    (isColumn : i.isRelationship = false) : ∃ within, i.site = some (.alternative within) := by
  obtain ⟨before, after, split, unreplaced⟩ := stands
  -- A relationship after the column would have superseded it.
  have isBefore : relationship ∈ before := by
    rw [split] at member
    rcases List.mem_append.mp member with early | late
    · exact early
    · rcases List.mem_cons.mp late with rfl | late
      · rw [isRelationship] at isColumn
        cases isColumn
      · exact absurd ⟨isNamed, fun _ => isRelationship⟩ (unreplaced relationship late)
  -- The column is then not among those of properties and members, which no relationship precedes.
  rw [insertions, List.append_assoc] at split
  rcases List.append_eq_append_iff.mp split with ⟨rest, _, isRest⟩ | ⟨rest, isColumns, _⟩
  · have inRest : i ∈ rest ++ i :: after := by simp
    rw [← isRest] at inRest
    rcases List.mem_append.mp inRest with chosen | mentioned
    · obtain ⟨a, _, inserted⟩ := List.mem_flatMap.mp chosen
      exact ⟨a.property, Alternative.site_of_mem_insertions inserted⟩
    · obtain ⟨m, _, inserted⟩ := List.mem_flatMap.mp mentioned
      rw [(Mention.site_of_mem_insertions inserted).2] at isColumn
      cases isColumn
  · have early : relationship ∈ before ++ rest := List.mem_append_left _ isBefore
    rw [← isColumns] at early
    rcases List.mem_append.mp early with own | included
    · rw [(Insertion.mem_ofScalars own).1] at isRelationship
      cases isRelationship
    · rw [(mem_memberInsertions included).2] at isRelationship
      cases isRelationship

/-- Every entity comes from a definition. It has a column and a relationship of one name exactly if
something inserts the relationship, and either a key of that name is put in place, which comes last,
or a primitive alternative comes to that name after all such relationships. In any other order the
relationship supersedes the column. -/
theorem shares_name_iff {d : Description} {options : Options} {g : Graph}
    (built : graph files d options = .ok g) (read : d.definitions = .ok definitions)
    (unique : definitions.keys.Nodup) {e : Entity} (there : g.entities.get? name = some e) :
    ∃ schema, definitions.get? name = some schema ∧ ∀ key,
      (key ∈ e.columns.keys ∧ key ∈ e.relationships.keys ↔
        (∃ i ∈ insertions files ⟨d, definitions, options⟩ name schema,
          i.isRelationship = true ∧ i.name = key) ∧
        (NeedsKey definitions name key ∨
          ∃ i within, Stands (insertions files ⟨d, definitions, options⟩ name schema) i ∧
            i.name = key ∧ i.isRelationship = false ∧ i.site = some (.alternative within))) := by
  obtain ⟨xs, made⟩ := exists_made built read unique
  have isDefined : name ∈ definitions.keys := by
    have isEntity := Table.mem_keys_of_get? there
    rw [made.entities, keys_entities_bound] at isEntity
    exact isEntity
  obtain ⟨schema, defined⟩ := Table.mem_keys_iff.mp isDefined
  obtain ⟨e', there', shows⟩ := made.shows defined
  obtain rfl := Option.some.inj (there.symm.trans there')
  refine ⟨schema, defined, fun key => ?_⟩
  rw [made.mem_keys_columns defined there, shows.mem_keys_relationships, and_comm]
  refine and_congr_right fun related => ?_
  obtain ⟨r, member, isRelationship, rfl⟩ := related
  constructor
  · rintro (⟨i, stands, isNamed, isColumn⟩ | needed)
    · obtain ⟨within, isSite⟩ :=
        site_of_stands_column member isRelationship isNamed.symm stands isColumn
      exact Or.inr ⟨i, within, stands, isNamed, isColumn, isSite⟩
    · exact Or.inl needed
  · rintro (needed | ⟨i, _, stands, isNamed, isColumn, _⟩)
    · exact Or.inr needed
    · exact Or.inl ⟨i, stands, isNamed, isColumn⟩

/-- A shopper whose wallet has the name of its key. -/
def purse : Description where
  document := .object [("openapi", .string "3.0.0"), ("components", .object [("schemas", .object [
    ("Shopper", .object [("properties", .object [
      ("wallet_id", .object [("$ref", .string "#/components/schemas/Wallet")])])]),
    ("Wallet", .object [("properties", .object [
      ("balance", .object [("type", .string "number")])])])])])]

/-- The key of the wallet is put in place beside the relationship of its name. -/
theorem purse_shares_name : ∃ g definitions e schema, graph {} purse {} = .ok g ∧
    purse.definitions = .ok definitions ∧ definitions.keys.Nodup ∧
    g.entities.get? "Shopper" = some e ∧ e.columns.keys = ["wallet_id"] ∧
    e.relationships.keys = ["wallet_id"] ∧ definitions.get? "Shopper" = some schema ∧
    (∃ i ∈ insertions {} ⟨purse, definitions, {}⟩ "Shopper" schema,
      i.isRelationship = true ∧ i.name = "wallet_id") ∧
    (NeedsKey definitions "Shopper" "wallet_id" ∨
      ∃ i within, Stands (insertions {} ⟨purse, definitions, {}⟩ "Shopper" schema) i ∧
        i.name = "wallet_id" ∧ i.isRelationship = false ∧
        i.site = some (.alternative within)) := by
  have run : (graph {} purse {}).toOption.map (fun g =>
      (g.entities.get? "Shopper").map fun e => (e.columns.keys, e.relationships.keys)) =
      some (some (["wallet_id"], ["wallet_id"])) := by
    decide +kernel
  have read : purse.definitions.toOption.map Table.keys = some ["Shopper", "Wallet"] := by
    decide +kernel
  obtain ⟨g, built, shopper⟩ := exists_ok_of_map run
  obtain ⟨definitions, defined, keys⟩ := exists_ok_of_map read
  obtain ⟨e, there, names⟩ := Option.map_eq_some_iff.mp shopper
  obtain ⟨columns, relationships⟩ := Prod.mk.inj names
  have unique : definitions.keys.Nodup := by
    rw [keys]
    decide
  obtain ⟨schema, isSchema, shares⟩ := shares_name_iff built defined unique there
  refine ⟨g, definitions, e, schema, built, defined, unique, there, columns, relationships,
    isSchema, (shares "wallet_id").mp ?_⟩
  rw [columns, relationships]
  decide

/-- Calls to a number that is listed or written out. The name of its definition is that of the
primitive type. -/
def calls : Description where
  document := .object [("openapi", .string "3.0.0"), ("components", .object [("schemas", .object [
    ("Call", .object [("properties", .object [("caller", .object [("oneOf", .array [
      .object [("$ref", .string "#/components/schemas/Number")],
      .object [("type", .string "number")]])])])]),
    ("Number", .object [("properties", .object [
      ("digits", .object [("type", .string "string")])])])])])]

/-- The column of the second alternative comes after the relationship of the first, which does not
supersede it. -/
theorem calls_share_name : ∃ g e, graph {} calls {} = .ok g ∧ g.entities.get? "Call" = some e ∧
    "caller_number" ∈ e.columns.keys ∧ "caller_number" ∈ e.relationships.keys := by
  have run : (graph {} calls {}).toOption.map (fun g =>
      (g.entities.get? "Call").map fun e => (e.columns.keys, e.relationships.keys)) =
      some (some (["caller_number", "number_id"], ["caller_number"])) := by
    decide +kernel
  obtain ⟨g, built, call⟩ := exists_ok_of_map run
  obtain ⟨e, there, names⟩ := Option.map_eq_some_iff.mp call
  obtain ⟨columns, relationships⟩ := Prod.mk.inj names
  exact ⟨g, e, built, there, by simp [columns], by simp [relationships]⟩

end ApiGraph.Build
