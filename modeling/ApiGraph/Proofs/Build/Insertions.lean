import ApiGraph.Proofs.Build.Links
import ApiGraph.Proofs.Build.Order
import Mathlib.Data.List.Induction

/-! What is inserted into an entity. The columns and relationships of an entity come one after the
other from the places of its definition: the columns of its own properties, those of the members of
its `allOf`, what its alternatives come to and at last the relationships of plain references
(`insertions`). What is inserted under a name that is taken may replace what stands there. The
entity has in the end what nothing later replaces (`Stands`), and the keys that are put in place
besides (`Made.shows`). -/

namespace ApiGraph.Build

variable {files : FileTree} {source : Source} {definitions : Table Schema} {xs : List Effect}

/-! Insertions. -/

inductive Content where
  | column (column : Column)
  | relationship (relationship : Relationship)
deriving DecidableEq

/-- A column or relationship that is inserted into an entity. -/
structure Insertion where
  /-- Where in the definition it comes from. Members of an `allOf` have no place of their own. -/
  site : Option Site
  name : String
  content : Content
deriving DecidableEq

namespace Insertion

def isRelationship (i : Insertion) : Bool :=
  match i.content with
  | .column _ => false
  | .relationship _ => true

/-- The entity with what is inserted. -/
def into (i : Insertion) (e : Entity) : Entity :=
  match i.content with
  | .column column => e.addColumn i.name column
  | .relationship relationship => e.addRelationship i.name relationship

/-- Of one name, a relationship replaces all that was there, and a column replaces a column. -/
def Replaces (later i : Insertion) : Prop :=
  later.name = i.name ∧ (i.isRelationship = true → later.isRelationship = true)

instance (later i : Insertion) : Decidable (later.Replaces i) :=
  inferInstanceAs (Decidable (_ ∧ _))

end Insertion

/-- The entity with all that is inserted, in order. -/
def insertAll (is : List Insertion) (e : Entity) : Entity := is.foldl (fun e i => i.into e) e

/-- What is inserted and not replaced by anything later. -/
def Stands (is : List Insertion) (i : Insertion) : Prop :=
  ∃ before after, is = before ++ i :: after ∧ ∀ later ∈ after, ¬ later.Replaces i

theorem not_stands_nil {i : Insertion} : ¬ Stands [] i := by
  rintro ⟨before, after, split, _⟩
  simp at split

/-- After one more insertion that one stands, and what stood before and is not replaced by it. -/
theorem stands_concat {is : List Insertion} {last i : Insertion} :
    Stands (is ++ [last]) i ↔ i = last ∨ Stands is i ∧ ¬ last.Replaces i := by
  constructor
  · rintro ⟨before, after, split, unreplaced⟩
    rcases List.eq_nil_or_concat after with rfl | ⟨rest, final, rfl⟩
    · exact Or.inl (List.singleton_inj.mp (List.append_inj' split rfl).2).symm
    · rw [List.concat_eq_append, ← List.cons_append, ← List.append_assoc] at split
      obtain ⟨rfl, same⟩ := List.append_inj' split rfl
      obtain rfl := List.singleton_inj.mp same
      refine Or.inr ⟨⟨before, rest, rfl, fun later member => ?_⟩, ?_⟩
      · exact unreplaced later (by simp [member])
      · exact unreplaced last (by simp)
  · rintro (rfl | ⟨⟨before, after, rfl, unreplaced⟩, kept⟩)
    · exact ⟨is, [], rfl, by simp⟩
    · refine ⟨before, after ++ [last], by simp, fun later member => ?_⟩
      rcases List.mem_append.mp member with early | final
      · exact unreplaced later early
      · rw [List.mem_singleton.mp final]
        exact kept

theorem keys_columns_into_nodup {e : Entity} (unique : e.columns.keys.Nodup) (i : Insertion) :
    (i.into e).columns.keys.Nodup := by
  rw [Insertion.into]
  split
  · exact Table.keys_insert_nodup unique _ _
  · exact unique.sublist (Table.keys_erase_sublist _ _)

theorem keys_columns_insertAll_nodup {e : Entity} (unique : e.columns.keys.Nodup)
    (is : List Insertion) : (insertAll is e).columns.keys.Nodup := by
  induction is generalizing e with
  | nil => exact unique
  | cons i rest ih => exact ih (keys_columns_into_nodup unique i)

theorem insertAll_append (is more : List Insertion) (e : Entity) :
    insertAll (is ++ more) e = insertAll more (insertAll is e) := List.foldl_append

theorem get?_columns_into {e : Entity} (unique : e.columns.keys.Nodup) (i : Insertion)
    (key : String) : (i.into e).columns.get? key =
      if i.name = key then
        match i.content with
        | .column column => some column
        | .relationship _ => none
      else e.columns.get? key := by
  rw [Insertion.into]
  split
  · exact Table.get?_insert _ _ _ _
  · exact Table.get?_erase unique _ _

theorem get?_relationships_into (i : Insertion) (e : Entity) (key : String) :
    (i.into e).relationships.get? key =
      match i.content with
      | .column _ => e.relationships.get? key
      | .relationship relationship =>
        if i.name = key then some relationship else e.relationships.get? key := by
  rw [Insertion.into]
  split
  · rfl
  · exact Table.get?_insert _ _ _ _

/-- Of an entity without columns, those are there afterwards that stand. -/
theorem get?_columns_insertAll {is : List Insertion} {e : Entity} (empty : e.columns = [])
    {key : String} {column : Column} : (insertAll is e).columns.get? key = some column ↔
      ∃ i, Stands is i ∧ i.name = key ∧ i.content = .column column := by
  -- From the end, since what stands depends on all that comes later.
  induction is using List.reverseRecOn with
  | nil => simp [insertAll, empty, not_stands_nil]
  | append_singleton is last ih =>
    have unique := keys_columns_insertAll_nodup (e := e) (by simp [empty]) is
    have step := get?_columns_into unique last key
    rw [insertAll_append]
    refine (Eq.congr_left step).trans ?_
    simp only [stands_concat]
    by_cases here : last.name = key
    · rw [if_pos here]
      constructor
      · intro found
        refine ⟨last, Or.inl rfl, here, ?_⟩
        split at found
        · rw [‹last.content = _›, Option.some.inj found]
        · cases found
      · rintro ⟨i, rfl | ⟨_, kept⟩, isNamed, isColumn⟩
        · simp [isColumn]
        · exact absurd ⟨here.trans isNamed.symm, by simp [Insertion.isRelationship, isColumn]⟩ kept
    · rw [if_neg here, ih]
      constructor
      · rintro ⟨i, stands, rfl, isColumn⟩
        exact ⟨i, Or.inr ⟨stands, fun replaces => here replaces.1⟩, rfl, isColumn⟩
      · rintro ⟨i, rfl | ⟨stands, _⟩, isNamed, isColumn⟩
        · exact absurd isNamed here
        · exact ⟨i, stands, isNamed, isColumn⟩

/-- Of an entity without relationships, those are there afterwards that stand. -/
theorem get?_relationships_insertAll {is : List Insertion} {e : Entity}
    (empty : e.relationships = []) {key : String} {relationship : Relationship} :
    (insertAll is e).relationships.get? key = some relationship ↔
      ∃ i, Stands is i ∧ i.name = key ∧ i.content = .relationship relationship := by
  induction is using List.reverseRecOn with
  | nil => simp [insertAll, empty, not_stands_nil]
  | append_singleton is last ih =>
    rw [insertAll_append]
    refine (Eq.congr_left (get?_relationships_into last (insertAll is e) key)).trans ?_
    simp only [stands_concat]
    constructor
    · intro found
      split at found
      -- A column replaces no relationship, so what stood before stands still.
      · obtain ⟨i, stands, isNamed, isRelationship⟩ := ih.mp found
        refine ⟨i, Or.inr ⟨stands, fun replaces => ?_⟩, isNamed, isRelationship⟩
        have keeps := replaces.2
        simp_all [Insertion.isRelationship]
      · split at found
        · exact ⟨last, Or.inl rfl, ‹_›, by rw [‹last.content = _›, Option.some.inj found]⟩
        · obtain ⟨i, stands, rfl, isRelationship⟩ := ih.mp found
          exact ⟨i, Or.inr ⟨stands, fun replaces => ‹¬ last.name = i.name› replaces.1⟩, rfl,
            isRelationship⟩
    · rintro ⟨i, rfl | ⟨stands, kept⟩, rfl, isRelationship⟩
      · simp [isRelationship]
      · have held := ih.mpr ⟨i, stands, rfl, isRelationship⟩
        split
        · exact held
        · rw [if_neg]
          · exact held
          · intro same
            exact kept ⟨same, fun _ => by simp [Insertion.isRelationship, ‹last.content = _›]⟩

/-! The insertions of a definition. -/

namespace Insertion

/-- The column of a property, if it is primitive. -/
def ofScalar? (site : String → Option Site) (requiredBy : List Schema)
    (entry : String × Schema) : Option Insertion :=
  entry.2.primitive.map fun primitive => {
    site := site entry.1
    name := Naming.columnIdent entry.1
    content := .column <|
      .ofSchema primitive entry.2 !(requiredBy.any (·.isRequired entry.1)) }

def ofScalars (site : String → Option Site) (requiredBy : List Schema)
    (properties : List (String × Schema)) : List Insertion :=
  properties.filterMap (ofScalar? site requiredBy)

end Insertion

def Member.insertions (files : FileTree) (source : Source) (m : Member) : List Insertion :=
  (memberSchema files source m.member).toOption.toList.flatMap fun member =>
    Insertion.ofScalars (fun _ => none) [m.schema, member] member.properties

/-- The relationship that a link adds, if it does. -/
def Link.insertions (l : Link) : List Insertion :=
  if l.addsRelationship then [⟨some l.site, l.name, .relationship l.added⟩] else []

def Alternative.insertions (source : Source) (a : Alternative) : List Insertion :=
  match a.schema.primitive with
  | some primitive =>
    [⟨some a.site, a.columnName primitive, .column (.ofSchema primitive a.schema true)⟩]
  | none => (a.links source).flatMap Link.insertions

def Mention.insertions (source : Source) (m : Mention) : List Insertion :=
  (m.links source).flatMap Link.insertions

/-- All that is inserted into the entity of a definition, in order. -/
def insertions (files : FileTree) (source : Source) (name : String) (schema : Schema) :
    List Insertion :=
  Insertion.ofScalars (fun property => some (.property property)) [schema] schema.properties ++
  (schema.allOf.map (⟨name, schema, ·⟩)).flatMap (Member.insertions files source) ++
  (Alternative.ofDefinition name schema).flatMap (Alternative.insertions source) ++
  (Mention.ofDefinition name schema).flatMap (Mention.insertions source)

theorem addScalarColumns_eq (site : String → Option Site) (e : Entity) (requiredBy : List Schema)
    (properties : List (String × Schema)) : addScalarColumns e requiredBy properties =
      insertAll (Insertion.ofScalars site requiredBy properties) e := by
  induction properties generalizing e with
  | nil => rfl
  | cons entry rest ih =>
    obtain ⟨name, property⟩ := entry
    have step : addScalarColumns e requiredBy ((name, property) :: rest) =
        addScalarColumns (addScalarColumns e requiredBy [(name, property)]) requiredBy rest := rfl
    rw [step, ih, Insertion.ofScalars, Insertion.ofScalars, List.filterMap_cons,
      Insertion.ofScalar?]
    simp only [addScalarColumns, List.foldl_cons, List.foldl_nil]
    cases property.primitive with
    | none => rfl
    | some primitive => rfl

/-- An effect that inserts what is given, and does nothing else to its entity. -/
def Effect.Inserts (x : Effect) (is : List Insertion) : Prop := ∀ e, x.change e = insertAll is e

theorem Member.effect_inserts {m : Member} {x : Effect} (does : m.effect files source = .ok x) :
    x.Inserts (m.insertions files source) := by
  obtain ⟨member, resolved, does⟩ := bind_eq_ok.mp does
  obtain rfl := Except.ok.inj does
  intro e
  rw [Member.insertions, resolved]
  simpa [Except.toOption] using addScalarColumns_eq _ e _ _

theorem Link.effect_inserts {l : Link} {x : Effect} (does : l.effect source = .ok x) :
    x.Inserts l.insertions := by
  obtain ⟨e, f, p, isSource, isTarget, placed, rfl⟩ := Link.effect_eq_ok does
  intro before
  rw [Link.insertions]
  by_cases adds : l.addsRelationship = true
  · simp [adds, insertAll, Insertion.into, Link.relationship_eq_added isSource isTarget placed]
  · simp [adds, insertAll]

theorem Mention.effect_inserts {m : Mention} {x : Effect} (does : m.effect source = .ok x) :
    x.Inserts (m.insertions source) := by
  obtain ⟨l, link, does⟩ := bind_eq_ok.mp does
  have single : m.insertions source = l.insertions := by
    simp [Mention.insertions, Mention.links, link, Except.toOption]
  rw [single]
  exact Link.effect_inserts does

theorem Alternative.effect_inserts {a : Alternative} {x : Effect} (does : a.effect source = .ok x) :
    x.Inserts (a.insertions source) := by
  rw [Alternative.effect] at does
  rw [Alternative.insertions, Alternative.links]
  cases primitive : a.schema.primitive with
  | some primitive' =>
    rw [primitive] at does
    obtain rfl := Except.ok.inj does
    exact fun _ => rfl
  | none =>
    rw [primitive] at does
    cases mention : a.mention? with
    | none =>
      rw [mention] at does
      cases does
    | some m =>
      rw [mention] at does
      simpa [Mention.insertions] using Mention.effect_inserts does

/-- What a round does to the entity of a definition, if each step inserts what is given for it. -/
theorem changeAll_round {α : Type} (unique : definitions.keys.Nodup)
    {items : String × Schema → List α} {effect : α → Except Fault Effect}
    (inserted : α → List Insertion)
    (inserts : ∀ a x, effect a = .ok x → x.Inserts (inserted a))
    (owner : ∀ definition, ∀ a ∈ items definition, ∀ x, effect a = .ok x → x.owner = definition.1)
    (does : (definitions.flatMap items).mapM effect = .ok xs) {name : String} {schema : Schema}
    (defined : definitions.get? name = some schema) (e : Entity) :
    changeAll (xs.filter (·.owner = name)) e =
      insertAll ((items (name, schema)).flatMap inserted) e := by
  obtain ⟨all, rfl⟩ := mapM_eq_ok_iff.mp does
  rw [filter_owner_eq unique owner, defined, Option.map_some, Option.getD_some]
  have ends : ∀ a ∈ items (name, schema), ∃ x, effect a = .ok x := fun a member =>
    all a (List.mem_flatMap.mpr ⟨_, Table.mem_of_get?_eq_some defined, member⟩)
  generalize items (name, schema) = as at ends
  induction as generalizing e with
  | nil => rfl
  | cons a rest ih =>
    obtain ⟨x, first⟩ := ends a (by simp)
    have later := ih (x.change e) fun b member => ends b (by simp [member])
    rw [List.filterMap_cons, first, List.flatMap_cons, insertAll_append, ← inserts a x first]
    exact later

/-- What the members of its `allOf` do to the entity of a definition. -/
theorem changeAll_members (unique : definitions.keys.Nodup)
    (does : (members definitions).mapM (Member.effect files source) = .ok xs) {name : String}
    {schema : Schema} (defined : definitions.get? name = some schema) (e : Entity) :
    changeAll (xs.filter (·.owner = name)) e =
      insertAll ((schema.allOf.map (⟨name, schema, ·⟩)).flatMap (Member.insertions files source))
        e := by
  apply changeAll_round unique (Member.insertions files source)
    (fun _ _ => Member.effect_inserts) _ does defined
  rintro definition m isMember x does
  obtain ⟨_, _, rfl⟩ := List.mem_map.mp isMember
  exact Member.effect_owner does

namespace Made

variable {g : Graph} {name : String} {schema : Schema}

/-- Before the keys are put in place, an entity is what is inserted for its definition. -/
theorem get?_unbound_eq (made : Made files source xs g)
    (defined : source.definitions.get? name = some schema) :
    (unbound files source xs).entities.get? name = some (insertAll
      (insertions files source name schema) (Entity.ofDefinition name schema source.options)) := by
  obtain ⟨included, expanded, placed, first, second, third, rfl⟩ := effects_eq_ok made.does
  have ofMembers := changeAll_members made.unique first defined
  have ofAlternatives := changeAll_round made.unique (Alternative.insertions source)
    (fun _ _ => Alternative.effect_inserts) (by
      rintro definition a isAlternative x does
      rw [Alternative.effect_owner does]
      exact source_of_ofDefinition isAlternative) second defined
  have ofMentions := changeAll_round made.unique (Mention.insertions source)
    (fun _ _ => Mention.effect_inserts) (by
      rintro definition m isMention x does
      rw [Mention.effect_owner does]
      exact source_of_mention isMention) third defined
  have split : ∀ e, changeAll ((included ++ expanded ++ placed).filter (·.owner = name)) e =
      changeAll (placed.filter (·.owner = name)) (changeAll (expanded.filter (·.owner = name))
        (changeAll (included.filter (·.owner = name)) e)) := by
    intro e
    rw [List.filter_append, List.filter_append, changeAll, List.foldl_append, List.foldl_append]
    rfl
  rw [get?_unbound, defined, Option.map_some, split, ofMentions, ofAlternatives, ofMembers,
    madeEntity, addScalarColumns_eq fun property => some (.property property), insertions,
    insertAll_append, insertAll_append, insertAll_append]

end Made

/-! What an entity shows of what is inserted. -/

/-- A column of an entity is known up to the key that is put in its place. -/
def Insertion.HeldBy (i : Insertion) (e : Entity) : Prop :=
  match i.content with
  | .column column =>
    ∃ foreignKey, e.columns.get? i.name = some { column with foreignKey := foreignKey }
  | .relationship relationship => e.relationships.get? i.name = some relationship

/-- An entity has what stands of what is inserted, and key columns besides, but nothing else. -/
structure Shows (e : Entity) (is : List Insertion) : Prop where
  held : ∀ i, Stands is i → i.HeldBy e
  relationship : ∀ name relationship, e.relationships.get? name = some relationship →
    ∃ i, Stands is i ∧ i.name = name ∧ i.content = .relationship relationship
  column : ∀ name column, e.columns.get? name = some column →
    (∃ i plain, Stands is i ∧ i.name = name ∧ i.content = .column plain ∧
      column = { plain with foreignKey := column.foreignKey }) ∨
    ∃ target, column = .key target

/-- An entity shows what is inserted, whatever keys are put in place afterwards. -/
theorem shows_bindEntity (reference : String → String) (keys : List PendingKey) (name : String)
    {e : Entity} (columns : e.columns = []) (relationships : e.relationships = [])
    (is : List Insertion) : Shows (bindEntity reference keys name (insertAll is e)) is where
  held := by
    intro i stands
    rw [Insertion.HeldBy]
    split
    · have plain := (get?_columns_insertAll columns).mpr ⟨i, stands, rfl, ‹i.content = _›⟩
      rcases get?_bindAll reference (keysOf (.entity name) keys) (insertAll is e).columns i.name
        with ⟨_, same⟩ | ⟨_, _, _, bound⟩
      · exact ⟨_, same.trans plain⟩
      · rw [plain] at bound
        exact ⟨_, bound⟩
    · exact (get?_relationships_insertAll relationships).mpr ⟨i, stands, rfl, ‹i.content = _›⟩
  relationship := fun _ _ there => (get?_relationships_insertAll relationships).mp there
  column := by
    intro key column there
    change (bindAll _ _ (insertAll is e).columns).get? key = some column at there
    rcases get?_bindAll reference (keysOf (.entity name) keys) (insertAll is e).columns key with
      ⟨_, same⟩ | ⟨_, _, _, bound⟩
    · rw [there] at same
      obtain ⟨i, stands, isNamed, isColumn⟩ := (get?_columns_insertAll columns).mp same.symm
      exact Or.inl ⟨i, column, stands, isNamed, isColumn, rfl⟩
    · rw [there, Option.some.injEq] at bound
      subst bound
      cases plain : (insertAll is e).columns.get? key with
      | none => exact Or.inr ⟨_, rfl⟩
      | some before =>
        obtain ⟨i, stands, isNamed, isColumn⟩ := (get?_columns_insertAll columns).mp plain
        exact Or.inl ⟨i, before, stands, isNamed, isColumn, rfl⟩

namespace Made

variable {g : Graph} {name : String} {schema : Schema}

/-- An entity is what is inserted for its definition, with the keys in place. -/
theorem get?_entities_eq (made : Made files source xs g)
    (defined : source.definitions.get? name = some schema) :
    g.entities.get? name = some (bindEntity (unbound files source xs).reference
      (unbound files source xs).pending name (insertAll (insertions files source name schema)
        (Entity.ofDefinition name schema source.options))) := by
  rw [made.entities, get?_bound_entities, made.get?_unbound_eq defined]
  rfl

theorem shows (made : Made files source xs g)
    (defined : source.definitions.get? name = some schema) :
    ∃ e, g.entities.get? name = some e ∧ Shows e (insertions files source name schema) :=
  ⟨_, made.get?_entities_eq defined, shows_bindEntity _ _ _ rfl rfl _⟩

end Made

/-! Where insertions come from. -/

section

variable {name : String} {schema : Schema} {i : Insertion}

theorem Insertion.ofScalar?_eq_some {site : String → Option Site} {requiredBy : List Schema}
    {entry : String × Schema} (h : ofScalar? site requiredBy entry = some i) :
    i.site = site entry.1 ∧ i.name = Naming.columnIdent entry.1 ∧ i.isRelationship = false := by
  obtain ⟨primitive, _, rfl⟩ := Option.map_eq_some_iff.mp h
  exact ⟨rfl, rfl, rfl⟩

theorem Insertion.mem_ofScalars {site : String → Option Site} {requiredBy : List Schema}
    {properties : List (String × Schema)} (h : i ∈ ofScalars site requiredBy properties) :
    i.isRelationship = false ∧ ∃ entry ∈ properties, i.site = site entry.1 := by
  obtain ⟨entry, member, made⟩ := List.mem_filterMap.mp h
  obtain ⟨isSite, _, isColumn⟩ := ofScalar?_eq_some made
  exact ⟨isColumn, entry, member, isSite⟩

/-- What the members of an `allOf` give are columns, which come from no place of the definition. -/
theorem mem_memberInsertions
    (h : i ∈ (schema.allOf.map (⟨name, schema, ·⟩)).flatMap (Member.insertions files source)) :
    i.site = none ∧ i.isRelationship = false := by
  obtain ⟨m, _, h⟩ := List.mem_flatMap.mp h
  obtain ⟨member, _, h⟩ := List.mem_flatMap.mp h
  obtain ⟨isColumn, _, _, isSite⟩ := Insertion.mem_ofScalars h
  exact ⟨isSite, isColumn⟩

theorem Link.mem_insertions {l : Link} : i ∈ l.insertions ↔
    l.addsRelationship = true ∧ i = ⟨some l.site, l.name, .relationship l.added⟩ := by
  rw [Link.insertions]
  split
  · simp [‹l.addsRelationship = true›]
  · simp [‹¬ l.addsRelationship = true›]

theorem Mention.mem_insertions {m : Mention} : i ∈ m.insertions source ↔
    ∃ l, m.link source = .ok l ∧ l.addsRelationship = true ∧
      i = ⟨some l.site, l.name, .relationship l.added⟩ := by
  simp only [Mention.insertions, List.mem_flatMap, Mention.mem_links, Link.mem_insertions]

theorem Mention.site_of_mem_insertions {m : Mention} (h : i ∈ m.insertions source) :
    i.site = some m.site ∧ i.isRelationship = true := by
  obtain ⟨l, link, _, rfl⟩ := Mention.mem_insertions.mp h
  obtain ⟨_, isSite, _⟩ := Mention.link_eq_ok.mp link
  exact ⟨congrArg some isSite, rfl⟩

theorem Alternative.site_of_mem_insertions {a : Alternative} (h : i ∈ a.insertions source) :
    i.site = some a.site := by
  rw [Alternative.insertions] at h
  split at h
  · rw [List.mem_singleton.mp h]
  · obtain ⟨l, isLink, h⟩ := List.mem_flatMap.mp h
    obtain ⟨_, m, mention, link⟩ := Alternative.mem_links.mp isLink
    obtain ⟨_, rfl⟩ := Link.mem_insertions.mp h
    obtain ⟨_, isSite, _⟩ := Mention.link_eq_ok.mp link
    obtain ⟨_, _, rfl⟩ := Option.map_eq_some_iff.mp mention
    exact congrArg some isSite

end

end ApiGraph.Build
