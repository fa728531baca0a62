import ApiGraph.Proofs.Build.ForeignKeys
import ApiGraph.Proofs.Graph.Same
import ApiGraph.Proofs.Json.Record

/-! The order of definitions does not count. With one label for a definition and one join table for
a pair, the build of definitions in another order comes to the same tables (`tables_reordered`):
each entity is changed by the same steps in the same order, the same keys are pending, and what
they are put in place of does not depend on their order. -/

namespace ApiGraph.Build

variable {files files' : FileTree} {source source' : Source}

/-! Steps. -/

/-- The same definitions in another order, read with the same options. -/
structure Source.Reordered (source source' : Source) : Prop where
  definitions : source'.definitions.Perm source.definitions
  unique : source.definitions.keys.Nodup
  options : source'.options = source.options

namespace Source.Reordered

theorem get? (h : source.Reordered source') (name : String) :
    source'.definitions.get? name = source.definitions.get? name :=
  (Table.get?_eq_of_perm h.unique h.definitions.symm name).symm

theorem keys (h : source.Reordered source') :
    source'.definitions.keys.Perm source.definitions.keys := h.definitions.map Prod.fst

theorem link_eq (h : source.Reordered source') (m : Mention) : m.link source' = m.link source := by
  simp only [Mention.link, Source.definition, h.get?]

theorem entityOf_eq (h : source.Reordered source') (name : String) :
    entityOf source' name = entityOf source name := by
  simp only [entityOf, h.get?, h.options]

theorem mention_effect_eq (h : source.Reordered source') (m : Mention) :
    m.effect source' = m.effect source := by
  simp only [Mention.effect, Link.effect, h.link_eq, h.entityOf_eq]

theorem alternative_effect_eq (h : source.Reordered source') (a : Alternative) :
    a.effect source' = a.effect source := by
  simp only [Alternative.effect, h.mention_effect_eq]

end Source.Reordered

theorem checkDefinitions_iff {definitions : List (String × Schema)} :
    checkDefinitions definitions = .ok () ↔
      ∀ definition ∈ definitions, checkDefinition definition = .ok () := by
  induction definitions with
  | nil => simp [checkDefinitions]
  | cons definition rest ih =>
    rw [checkDefinitions, bind_eq_ok]
    simp only [ih, List.mem_cons, forall_eq_or_imp]
    constructor
    · rintro ⟨_, first, later⟩
      exact ⟨first, later⟩
    · rintro ⟨first, later⟩
      exact ⟨(), first, later⟩

/-! Owners. -/

theorem Member.effect_owner {m : Member} {x : Effect} (h : m.effect files source = .ok x) :
    x.owner = m.name := by
  obtain ⟨member, _, h⟩ := bind_eq_ok.mp h
  cases h
  rfl

theorem Mention.effect_owner {m : Mention} {x : Effect} (h : m.effect source = .ok x) :
    x.owner = m.source := by
  obtain ⟨l, link, h⟩ := bind_eq_ok.mp h
  obtain ⟨e, f, p, _, _, _, rfl⟩ := Link.effect_eq_ok h
  exact (Mention.link_eq_ok.mp link).1

theorem Alternative.effect_owner {a : Alternative} {x : Effect} (h : a.effect source = .ok x) :
    x.owner = a.source := by
  rw [Alternative.effect] at h
  split at h
  · cases h
    rfl
  · split at h
    · rename_i m mention
      obtain ⟨_, _, rfl⟩ := Option.map_eq_some_iff.mp mention
      exact Mention.effect_owner h
    · cases h

theorem source_of_mention {definition : String × Schema} {m : Mention}
    (h : m ∈ Mention.ofDefinition definition.1 definition.2) : m.source = definition.1 := by
  rcases List.mem_append.mp h with items | property
  · rw [Mention.ofItems] at items
    split at items
    · obtain ⟨_, _, rfl⟩ := Option.map_eq_some_iff.mp (Option.mem_toList.mp items)
      rfl
    · cases items
  · obtain ⟨⟨name, p⟩, _, found⟩ := List.mem_flatMap.mp property
    simp only [Mention.ofProperty] at found
    split at found
    · obtain ⟨_, _, rfl⟩ := Option.map_eq_some_iff.mp (Option.mem_toList.mp found)
      rfl
    · cases found

/-- Steps that change the same entities in the same way, each entity in the same order. -/
structure Effect.Reordered (xs xs' : List Effect) : Prop where
  perm : xs.Perm xs'
  owned : ∀ name, xs'.filter (·.owner = name) = xs.filter (·.owner = name)

theorem Effect.Reordered.append {xs xs' ys ys' : List Effect} (h : Effect.Reordered xs xs')
    (h' : Effect.Reordered ys ys') : Effect.Reordered (xs ++ ys) (xs' ++ ys') where
  perm := h.perm.append h'.perm
  owned name := by rw [List.filter_append, List.filter_append, h.owned, h'.owned]

/-- The effects of one owner are those of the items of its definition. -/
theorem filter_owner_eq {α : Type} {definitions : Table Schema} (unique : definitions.keys.Nodup)
    {items : String × Schema → List α} {effect : α → Except Fault Effect}
    (owner : ∀ definition, ∀ a ∈ items definition, ∀ x, effect a = .ok x →
      x.owner = definition.1) (name : String) :
    ((definitions.flatMap items).filterMap fun a => (effect a).toOption).filter (·.owner = name) =
      ((definitions.get? name).map fun schema =>
        (items (name, schema)).filterMap fun a => (effect a).toOption).getD [] := by
  rw [← Table.flatMap_at unique name
    fun definition => (items definition).filterMap fun a => (effect a).toOption,
    List.filterMap_flatMap, List.filter_flatMap]
  apply List.flatMap_congr
  intro definition _
  have owned : ∀ x ∈ (items definition).filterMap fun a => (effect a).toOption,
      x.owner = definition.1 := by
    intro x isEffect
    obtain ⟨a, isItem, does⟩ := List.mem_filterMap.mp isEffect
    apply owner definition a isItem x
    cases run : effect a with
    | ok y =>
      rw [run] at does
      cases does
      rfl
    | error fault =>
      rw [run] at does
      cases does
  split
  · rename_i here
    exact List.filter_eq_self.mpr fun x isEffect => by simpa [owned x isEffect] using here
  · rename_i elsewhere
    exact List.filter_eq_nil_iff.mpr fun x isEffect => by simpa [owned x isEffect] using elsewhere

/-- A round over the definitions in another order takes the same steps for each of them. -/
theorem round_reordered {α : Type} {definitions definitions' : Table Schema}
    (perm : definitions'.Perm definitions) (unique : definitions.keys.Nodup)
    {items : String × Schema → List α} {effect effect' : α → Except Fault Effect}
    (gives : ∀ a ∈ definitions.flatMap items, Gives (effect a) (effect' a))
    (owner : ∀ definition, ∀ a ∈ items definition, ∀ x, effect a = .ok x →
      x.owner = definition.1)
    {xs : List Effect} (h : (definitions.flatMap items).mapM effect = .ok xs) :
    ∃ xs', (definitions'.flatMap items).mapM effect' = .ok xs' ∧ Effect.Reordered xs xs' := by
  obtain ⟨all, rfl⟩ := mapM_eq_ok_iff.mp h
  have unique' : definitions'.keys.Nodup := (perm.map Prod.fst).nodup_iff.mpr unique
  have same : ∀ a ∈ definitions.flatMap items, effect' a = effect a := by
    intro a member
    obtain ⟨x, does⟩ := all a member
    rw [does, gives a member x does]
  have member : ∀ a, a ∈ definitions'.flatMap items ↔ a ∈ definitions.flatMap items := by
    intro a
    exact (perm.flatMap_right items).mem_iff
  have results : ((definitions'.flatMap items).filterMap fun a => (effect' a).toOption) =
      (definitions'.flatMap items).filterMap fun a => (effect a).toOption := by
    apply List.filterMap_congr
    intro a isItem
    rw [same a ((member a).mp isItem)]
  refine ⟨_, mapM_eq_ok_iff.mpr ⟨?_, rfl⟩, ?_, ?_⟩
  · intro a isItem
    rw [same a ((member a).mp isItem)]
    exact all a ((member a).mp isItem)
  · rw [results]
    exact ((perm.symm.flatMap_right items).filterMap _)
  · intro name
    rw [results, filter_owner_eq unique' owner, filter_owner_eq unique owner,
      ← Table.get?_eq_of_perm unique perm.symm]

/-- If the members of every `allOf` stay what they are, all steps are the same. -/
theorem effects_reordered (h : source.Reordered source')
    (sameMembers : ∀ m ∈ members source.definitions,
      Gives (memberSchema files source m.member) (memberSchema files' source' m.member))
    {xs : List Effect} (does : effects files source = .ok xs) :
    ∃ xs', effects files' source' = .ok xs' ∧ Effect.Reordered xs xs' := by
  obtain ⟨included, expanded, placed, first, second, third, rfl⟩ := effects_eq_ok does
  obtain ⟨included', first', sameIncluded⟩ := @round_reordered _ _ _ h.definitions h.unique
    _ (Member.effect files source) (Member.effect files' source')
    (fun m member => (sameMembers m member).bind fun _ => Gives.refl _)
    (by
      rintro definition m isMember x does
      obtain ⟨_, _, rfl⟩ := List.mem_map.mp isMember
      exact Member.effect_owner does) _ first
  obtain ⟨expanded', second', sameExpanded⟩ := @round_reordered _ _ _ h.definitions h.unique
    _ (Alternative.effect source) (Alternative.effect source')
    (fun a _ => by rw [h.alternative_effect_eq]; exact Gives.refl _)
    (by
      rintro definition a isAlternative x does
      rw [Alternative.effect_owner does]
      exact source_of_ofDefinition isAlternative) _ second
  obtain ⟨placed', third', samePlaced⟩ := @round_reordered _ _ _ h.definitions h.unique
    _ (Mention.effect source) (Mention.effect source')
    (fun m _ => by rw [h.mention_effect_eq]; exact Gives.refl _)
    (by
      rintro definition m isMention x does
      rw [Mention.effect_owner does]
      exact source_of_mention isMention) _ third
  refine ⟨included' ++ expanded' ++ placed', ?_, (sameIncluded.append sameExpanded).append samePlaced⟩
  rw [effects, show (members source'.definitions).mapM _ = .ok included' from first', ok_bind,
    show (alternatives source'.definitions).mapM _ = .ok expanded' from second', ok_bind,
    show (mentions source'.definitions).mapM _ = .ok placed' from third', ok_bind]
  rfl

/-! What the steps come to. -/

section

variable {xs xs' : List Effect}

theorem get?_unbound_reordered (h : source.Reordered source') (same : Effect.Reordered xs xs')
    (name : String) : (unbound files' source' xs').entities.get? name =
      (unbound files source xs).entities.get? name := by
  rw [get?_unbound, get?_unbound, h.get?, h.options, same.owned]

theorem reference_reordered (h : source.Reordered source') (same : Effect.Reordered xs xs') :
    (unbound files' source' xs').reference = (unbound files source xs).reference := by
  funext name
  rw [State.reference, State.reference, get?_unbound_reordered h same]

theorem mem_pending_reordered (same : Effect.Reordered xs xs') {key : PendingKey} :
    key ∈ (unbound files' source' xs').pending ↔ key ∈ (unbound files source xs).pending := by
  simp only [mem_pending_unbound, same.perm.mem_iff]

theorem get?_joinTables_reordered (same : Effect.Reordered xs xs')
    (agree : ∀ e ∈ joinTablesOf xs, ∀ e' ∈ joinTablesOf xs, e.1 = e'.1 → e = e') (name : String) :
    (unbound files' source' xs').joinTables.get? name =
      (unbound files source xs).joinTables.get? name := by
  rw [joinTables_unbound, joinTables_unbound, Table.get?_addAll, Table.get?_addAll,
    Table.get?_eq_of_agree agree (same.perm.filterMap _)]
  rfl

/-- Keys under one name that reference the same can be put in place in any order. -/
theorem bindAll_perm {reference : String → String} {keys keys' : List PendingKey}
    (agree : Agree reference keys) (same : ∀ key, key ∈ keys' ↔ key ∈ keys)
    {columns : Table Column} (unique : columns.keys.Nodup) :
    (bindAll reference keys columns).Perm (bindAll reference keys' columns) := by
  have agree' : Agree reference keys' := fun k member k' member' =>
    agree k ((same k).mp member) k' ((same k').mp member')
  apply Table.perm_of_get?_eq (keys_bindAll_nodup _ _ unique) (keys_bindAll_nodup _ _ unique)
  intro name
  by_cases named : ∃ key ∈ keys, key.column = name
  · obtain ⟨key, member, rfl⟩ := named
    rw [get?_bindAll_of_named agree member, get?_bindAll_of_named agree' ((same key).mpr member)]
  · have unnamed : ∀ key ∈ keys, key.column ≠ name := fun key member isNamed =>
      named ⟨key, member, isNamed⟩
    rw [get?_bindAll_of_unnamed unnamed,
      get?_bindAll_of_unnamed fun key member => unnamed key ((same key).mp member)]

/-- With all keys in place, the entities are the same. -/
theorem entities_reordered (h : source.Reordered source') (same : Effect.Reordered xs xs')
    (agree : Agree (unbound files source xs).reference (unbound files source xs).pending)
    (clean : ∀ name e, (unbound files source xs).entities.get? name = some e → Clean e.columns) :
    Table.Alike Entity.Same
      ((unbound files source xs).bound (unbound files source xs).pending).entities
      ((unbound files' source' xs').bound (unbound files' source' xs').pending).entities where
  keys := by
    rw [keys_entities_bound, keys_entities_bound]
    exact h.keys.symm
  values := by
    intro name e e' found found'
    rw [get?_bound_entities, Option.map_eq_some_iff] at found found'
    obtain ⟨made, found, rfl⟩ := found
    obtain ⟨made', found', rfl⟩ := found'
    rw [get?_unbound_reordered h same, found] at found'
    obtain rfl := Option.some.inj found'
    refine ⟨rfl, ?_⟩
    rw [reference_reordered h same]
    apply bindAll_perm (agree.keysOf _) _ (clean name made found).unique
    intro key
    rw [mem_keysOf, mem_keysOf, mem_pending_reordered same]

/-- With all keys in place, the join tables are the same. -/
theorem joinTables_reordered (h : source.Reordered source') (same : Effect.Reordered xs xs')
    (agree : Agree (unbound files source xs).reference (unbound files source xs).pending)
    (agreeTables : ∀ e ∈ joinTablesOf xs, ∀ e' ∈ joinTablesOf xs, e.1 = e'.1 → e = e')
    (clean : ∀ name t, (unbound files source xs).joinTables.get? name = some t →
      Clean t.columns) :
    Table.Alike JoinTable.Same
      ((unbound files source xs).bound (unbound files source xs).pending).joinTables
      ((unbound files' source' xs').bound (unbound files' source' xs').pending).joinTables where
  keys := by
    rw [keys_bound_joinTables, keys_bound_joinTables]
    apply (List.perm_ext_iff_of_nodup keys_joinTables_unbound_nodup
      keys_joinTables_unbound_nodup).mpr
    intro name
    rw [Table.mem_keys_iff, Table.mem_keys_iff, get?_joinTables_reordered same agreeTables]
  values := by
    intro name t t' found found'
    rw [get?_bound_joinTables, Option.map_eq_some_iff] at found found'
    obtain ⟨made, found, rfl⟩ := found
    obtain ⟨made', found', rfl⟩ := found'
    rw [@get?_joinTables_reordered files _ source _ _ _ same agreeTables, found] at found'
    obtain rfl := Option.some.inj found'
    refine ⟨rfl, ?_⟩
    rw [reference_reordered h same]
    apply bindAll_perm (agree.keysOf _) _ (clean name made found).unique
    intro key
    rw [mem_keysOf, mem_keysOf, mem_pending_reordered same]

end

/-! Join tables. -/

/-- Many-to-many links with one join table are between the same two definitions. -/
def JoinsApart (definitions : Table Schema) : Prop :=
  ∀ (l l' : Link) (schema schema' : Schema), l.IsOf definitions schema →
    l'.IsOf definitions schema' → l.cardinality = .manyToMany → l'.cardinality = .manyToMany →
    JoinTable.nameFor (Naming.flat l.source) (Naming.flat l.target) =
      JoinTable.nameFor (Naming.flat l'.source) (Naming.flat l'.target) →
    sortedPair l.source l.target = sortedPair l'.source l'.target

theorem Holds.perm {definitions definitions' : Table Schema} (perm : definitions.Perm definitions')
    {name : String} {site : Site} {schema : Schema} (h : Holds definitions name site schema) :
    Holds definitions' name site schema := by
  cases h with
  | alternative defined isChoice notPrimitive =>
    exact .alternative (perm.mem_iff.mp defined) isChoice notPrimitive
  | propertyAlternative defined isProperty isChoice notPrimitive =>
    exact .propertyAlternative (perm.mem_iff.mp defined) isProperty isChoice notPrimitive
  | array defined isArray => exact .array (perm.mem_iff.mp defined) isArray
  | property defined isProperty plain refers =>
    exact .property (perm.mem_iff.mp defined) isProperty plain refers

/-- Links do not depend on the order of definitions. -/
theorem Link.IsOf.perm {definitions definitions' : Table Schema}
    (perm : definitions.Perm definitions') (unique : definitions.keys.Nodup) {l : Link}
    {schema : Schema} (h : l.IsOf definitions schema) : l.IsOf definitions' schema where
  held := h.held.perm perm
  refers := h.refers
  defined := by
    rw [← Table.get?_eq_of_perm unique perm]
    exact h.defined

theorem JoinsApart.perm {definitions definitions' : Table Schema}
    (perm : definitions'.Perm definitions) (unique : definitions.keys.Nodup)
    (h : JoinsApart definitions) : JoinsApart definitions' := by
  have unique' : definitions'.keys.Nodup := (perm.map Prod.fst).nodup_iff.mpr unique
  intro l l' schema schema' isOf isOf'
  exact h l l' schema schema' (isOf.perm perm unique') (isOf'.perm perm unique')

/-- Join tables are apart if those of any two pairs of definitions are. -/
theorem joinsApart_of_labels {definitions : Table Schema} {labels : Table String}
    (labelled : definitions.keys.map (fun name => (name, Naming.flat name)) = labels)
    (apart : ∀ a ∈ labels, ∀ b ∈ labels, ∀ c ∈ labels, ∀ d ∈ labels,
      JoinTable.nameFor a.2 b.2 = JoinTable.nameFor c.2 d.2 →
        sortedPair a.1 b.1 = sortedPair c.1 d.1) : JoinsApart definitions := by
  intro l l' schema schema' isOf isOf' _ _ same
  have inLabels : ∀ name ∈ definitions.keys, (name, Naming.flat name) ∈ labels := by
    intro name defined
    rw [← labelled]
    exact List.mem_map_of_mem defined
  have source := inLabels _ isOf.held.mem_keys
  have source' := inLabels _ isOf'.held.mem_keys
  have target := inLabels _ (Table.mem_keys_of_get? isOf.defined)
  have target' := inLabels _ (Table.mem_keys_of_get? isOf'.defined)
  exact apart _ source _ target _ source' _ target' same

/-- The join table of an effect is that of a many-to-many link. -/
theorem exists_joining_link {xs : List Effect}
    (checked : checkDefinitions source.definitions = .ok ())
    (does : effects files source = .ok xs) {x : Effect} (member : x ∈ xs) {t : JoinTable}
    (joins : x.joinTable = some t) : ∃ (l : Link) (schema : Schema) (e f : Entity),
      l.IsOf source.definitions schema ∧ l.cardinality = .manyToMany ∧
      entityOf source l.source = .ok e ∧ entityOf source l.target = .ok f ∧
      e.nameSpace = f.nameSpace ∧
      t = ⟨JoinTable.nameFor (Naming.flat l.source) (Naming.flat l.target), e.nameSpace,
        sortedPair l.source l.target, []⟩ := by
  rcases placed_of_mem does member with ⟨_, none⟩ | ⟨m, isPlaced, placed⟩
  · rw [none] at joins
    cases joins
  · obtain ⟨l, schema, isOf, linked⟩ := link_of_placed checked isPlaced placed
    obtain ⟨e, f, p, madeSource, madeTarget, placement, rfl⟩ := Link.effect_eq_ok linked
    have many := manyToMany_of_joinTable placement joins
    obtain ⟨together, isTable⟩ := joinTable_of_manyToMany placement many
    rw [label_of_entityOf madeSource, label_of_entityOf madeTarget] at isTable
    exact ⟨l, schema, e, f, isOf, many, madeSource, madeTarget, together,
      Option.some.inj (joins.symm.trans isTable)⟩

theorem eq_of_sortedPair {a b a' b' : String} (same : sortedPair a b = sortedPair a' b') :
    a = a' ∧ b = b' ∨ a = b' ∧ b = a' := by
  rcases sortedPair_cases a b with ⟨first, _⟩ | ⟨first, _⟩
  · rcases sortedPair_cases a' b' with ⟨second, _⟩ | ⟨second, _⟩
    · rw [first, second, Prod.mk.injEq] at same
      exact Or.inl same
    · rw [first, second, Prod.mk.injEq] at same
      exact Or.inr same
  · rcases sortedPair_cases a' b' with ⟨second, _⟩ | ⟨second, _⟩
    · rw [first, second, Prod.mk.injEq] at same
      exact Or.inr ⟨same.2, same.1⟩
    · rw [first, second, Prod.mk.injEq] at same
      exact Or.inl ⟨same.2, same.1⟩

/-- Links with one join table ask for the same table. -/
theorem joinTables_agree {xs : List Effect}
    (checked : checkDefinitions source.definitions = .ok ()) (apart : JoinsApart source.definitions)
    (does : effects files source = .ok xs) :
    ∀ entry ∈ joinTablesOf xs, ∀ entry' ∈ joinTablesOf xs, entry.1 = entry'.1 → entry = entry' := by
  rintro ⟨_, t⟩ member ⟨_, t'⟩ member' same
  obtain ⟨x, isEffect, recorded, rfl⟩ := mem_joinTablesOf.mp member
  obtain ⟨x', isEffect', recorded', rfl⟩ := mem_joinTablesOf.mp member'
  obtain ⟨l, schema, e, f, isOf, many, isSource, isTarget, together, rfl⟩ :=
    exists_joining_link checked does isEffect recorded
  obtain ⟨l', schema', e', f', isOf', many', isSource', isTarget', together', rfl⟩ :=
    exists_joining_link checked does isEffect' recorded'
  simp only at same
  have pair := apart l l' schema schema' isOf isOf' many many' same
  have nameSpace : e.nameSpace = e'.nameSpace := by
    rcases eq_of_sortedPair pair with ⟨sources, _⟩ | ⟨_, crossed⟩
    · rw [sources, isSource'] at isSource
      rw [Except.ok.inj isSource]
    · rw [crossed, isSource'] at isTarget
      rw [together, Except.ok.inj isTarget]
  rw [same, nameSpace, pair]

/-- The tables of definitions in another order are the same. -/
theorem tables_reordered (h : source.Reordered source')
    (labels : (source.definitions.keys.map Naming.flat).Nodup)
    (apart : JoinsApart source.definitions)
    (sameMembers : ∀ m ∈ members source.definitions,
      Gives (memberSchema files source m.member) (memberSchema files' source' m.member))
    {s : State} (built : tables source { resolver := Resolver.fresh files } = .ok s) :
    ∃ s', tables source' { resolver := Resolver.fresh files' } = .ok s' ∧
      Table.Alike Entity.Same s.entities s'.entities ∧
      Table.Alike JoinTable.Same s.joinTables s'.joinTables ∧
      s.entities.keys = source.definitions.keys ∧ s.joinTables.keys.Nodup := by
  obtain ⟨checked, xs, does, entities, joinTables⟩ := tables_eq_ok h.unique built
  have checked' : checkDefinitions source'.definitions = .ok () := by
    rw [checkDefinitions_iff] at checked ⊢
    exact fun definition member => checked definition (h.definitions.mem_iff.mp member)
  obtain ⟨xs', does', same⟩ := @effects_reordered files files' _ _ h sameMembers xs does
  have law := @tables_eq_bound files' source' (h.keys.nodup_iff.mpr h.unique)
  rw [checked', ok_bind, does'] at law
  obtain ⟨s', after, entities', joinTables'⟩ := law
  have backed := effects_backed does
  have agree := @pending_agree files _ _ labels backed (unbound files source xs).reference
  refine ⟨s', after, ?_, ?_, ?_, ?_⟩
  · rw [entities, entities']
    exact entities_reordered h same agree fun _ _ found => clean_unbound does found
  · rw [joinTables, joinTables']
    exact joinTables_reordered h same agree (joinTables_agree checked apart does)
      fun _ _ found => clean_joinTable backed found
  · rw [entities, keys_entities_bound]
  · rw [joinTables]
    exact keys_joinTables_bound_nodup

end ApiGraph.Build
