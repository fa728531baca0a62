import ApiGraph.Proofs.Build.Order
import ApiGraph.Proofs.Table.Parts

/-! Building a part of the definitions. If links lead from the part to the part and from the rest to
the rest, the steps of the part are those steps of the whole that change its entities
(`Part.effects_eq`). What they come to are the entities of the whole that belong to the part
(`Part.entities_eq`), and its join tables, if no link of the rest asks for one of the same name
(`Part.joinTables_eq`). -/

namespace ApiGraph.Build

variable {files : FileTree} {whole part : Source} {mine : String → Bool} {xs : List Effect}

/-- A part of the definitions, chosen by their names. -/
structure Source.Part (files : FileTree) (mine : String → Bool) (whole part : Source) : Prop where
  definitions : part.definitions = whole.definitions.filter fun entry => mine entry.1
  options : part.options = whole.options
  unique : whole.definitions.keys.Nodup
  /-- Links lead from the part to the part and from the rest to the rest. -/
  links : ∀ m, IsPlaced whole.definitions m → ∀ target ∈ whole.definitions.keys,
    definitionName? m.ref = some target → mine target = mine m.source
  members : ∀ m ∈ members whole.definitions, mine m.name = true → ∀ schema,
    memberSchema files part m.member = .ok schema ↔ memberSchema files whole m.member = .ok schema

/-! Keys. -/

/-- The keys of an effect point at the part that its owner belongs to, and those that are on
entities are on entities of this part. -/
structure Effect.Within (mine : String → Bool) (x : Effect) : Prop where
  target : ∀ key ∈ x.keys, mine key.target = mine x.owner
  entity : ∀ key ∈ x.keys, ∀ name, key.owner = .entity name → mine name = mine x.owner

theorem Link.effect_within {source : Source} {l : Link} {x : Effect}
    (does : l.effect source = .ok x) (same : mine l.target = mine l.source) : x.Within mine := by
  obtain ⟨e, f, p, isSource, isTarget, placed, rfl⟩ := Link.effect_eq_ok does
  have needs := fun key =>
    (mem_keys_iff (entityOf_eq_ok isSource).2 (entityOf_eq_ok isTarget).2 placed key).mp
  constructor
  · intro key isKey
    rcases (needs key isKey).target with side | side
    · rw [side]
    · rw [side, same]
  · intro key isKey name isOwner
    have needed := needs key isKey
    generalize l.cardinality = c at needed
    cases needed with
    | toOne | manyToOne =>
      obtain rfl := KeyOwner.entity.inj isOwner
      rfl
    | toMany | oneToMany =>
      obtain rfl := KeyOwner.entity.inj isOwner
      exact same
    | oneToOne sides _ =>
      obtain rfl := KeyOwner.entity.inj isOwner
      rcases sides with ⟨rfl, _⟩ | ⟨rfl, _⟩
      · rfl
      · exact same
    | manyToMany => cases isOwner

theorem keysOf_filter {owner : KeyOwner} {keep : PendingKey → Bool} {keys : List PendingKey}
    (kept : ∀ key ∈ keys, key.owner = owner → keep key = true) :
    keysOf owner (keys.filter keep) = keysOf owner keys := by
  rw [keysOf, keysOf, List.filter_filter]
  apply List.filter_congr
  intro key member
  by_cases isOwner : key.owner = owner
  · simp [isOwner, kept key member isOwner]
  · simp [isOwner]

theorem bindAll_congr {reference reference' : String → String} {keys : List PendingKey}
    (same : ∀ key ∈ keys, reference' key.target = reference key.target) (columns : Table Column) :
    bindAll reference' keys columns = bindAll reference keys columns :=
  List.foldl_ext _ _ columns fun _ key member => by rw [same key member]

/-! Join tables. -/

/-- No two effects of different parts ask for join tables of one name. -/
def TablesApart (mine : String → Bool) (xs : List Effect) : Prop :=
  ∀ x ∈ xs, ∀ x' ∈ xs, ∀ t t', x.joinTable = some t → x'.joinTable = some t' → t.name = t'.name →
    mine x.owner = mine x'.owner

/-- Whether an effect of the part asks for a join table of the name. -/
def AsksFor (mine : String → Bool) (xs : List Effect) (name : String) : Bool :=
  xs.any fun x => mine x.owner && x.joinTable.any fun t => t.name = name

theorem asksFor_iff {name : String} : AsksFor mine xs name = true ↔
    ∃ x ∈ xs, mine x.owner = true ∧ ∃ t, x.joinTable = some t ∧ t.name = name := by
  simp [AsksFor, Option.any_eq_true]

theorem TablesApart.not {mine : String → Bool} (h : TablesApart mine xs) :
    TablesApart (!mine ·) xs := by
  intro x isEffect x' isEffect' t t' joins joins' same
  exact congrArg (!·) (h x isEffect x' isEffect' t t' joins joins' same)

/-- A join table that is asked for belongs to one of the two parts. -/
theorem TablesApart.asksFor_not (h : TablesApart mine xs) {name : String}
    (asked : ∃ x ∈ xs, ∃ t, x.joinTable = some t ∧ t.name = name) :
    AsksFor (!mine ·) xs name = !AsksFor mine xs name := by
  obtain ⟨x, isEffect, t, joins, isName⟩ := asked
  have here : ∀ side : String → Bool, TablesApart side xs →
      AsksFor side xs name = side x.owner := by
    intro side apart
    rw [Bool.eq_iff_iff, asksFor_iff]
    constructor
    · rintro ⟨x', isEffect', ours, t', joins', isName'⟩
      rw [apart x isEffect x' isEffect' t t' joins joins' (isName.trans isName'.symm), ours]
    · exact fun ours => ⟨x, isEffect, ours, t, joins, isName⟩
  rw [here _ h.not, here _ h]

theorem joinTablesOf_filter (h : TablesApart mine xs) :
    joinTablesOf (xs.filter fun x => mine x.owner) =
      (joinTablesOf xs).filter fun entry => AsksFor mine xs entry.1 := by
  rw [joinTablesOf, joinTablesOf, List.filterMap_eq_flatMap_toList, List.filterMap_eq_flatMap_toList]
  refine Table.flatMap_filter ?_
  intro x isEffect entry isTable
  obtain ⟨t, joins, rfl⟩ := Option.map_eq_some_iff.mp (Option.mem_toList.mp isTable)
  rw [Bool.eq_iff_iff, asksFor_iff]
  constructor
  · rintro ⟨x', isEffect', ours, t', joins', isName⟩
    rw [h x isEffect x' isEffect' t t' joins joins' isName.symm, ours]
  · exact fun ours => ⟨x, isEffect, ours, t, joins, rfl⟩

namespace Source.Part

/-! Steps. -/

section

variable (h : whole.Part files mine part)
include h

theorem get? {name : String} (ours : mine name = true) :
    part.definitions.get? name = whole.definitions.get? name := by
  rw [h.definitions, Table.get?_filter, if_pos ours]

theorem keys : part.definitions.keys = whole.definitions.keys.filter mine := by
  rw [h.definitions, Table.keys_filter]

theorem keys_nodup : part.definitions.keys.Nodup := by
  rw [h.keys]
  exact h.unique.filter mine

theorem entityOf_eq {name : String} (ours : mine name = true) :
    entityOf part name = entityOf whole name := by
  rw [entityOf, entityOf, h.get? ours, h.options]

theorem members_eq :
    Build.members part.definitions = (Build.members whole.definitions).filter (mine ·.name) := by
  rw [Build.members, h.definitions]
  refine Table.flatMap_filter ?_
  intro definition _ m isMember
  obtain ⟨_, _, rfl⟩ := List.mem_map.mp isMember
  rfl

theorem alternatives_eq :
    alternatives part.definitions = (alternatives whole.definitions).filter (mine ·.source) := by
  rw [alternatives, h.definitions]
  refine Table.flatMap_filter ?_
  intro definition _ a isAlternative
  rw [source_of_ofDefinition isAlternative]

theorem mentions_eq :
    mentions part.definitions = (mentions whole.definitions).filter (mine ·.source) := by
  rw [mentions, h.definitions]
  refine Table.flatMap_filter ?_
  intro definition _ m isMention
  rw [source_of_mention isMention]

/-- A reference of the part is a link in the part exactly if it is one in the whole. -/
theorem link_eq {m : Mention} (isPlaced : IsPlaced whole.definitions m)
    (ours : mine m.source = true) : m.link part = m.link whole := by
  have same : ((definitionName? m.ref).bind fun name =>
      (part.definitions.get? name).map (name, ·)) =
      (definitionName? m.ref).bind fun name => (whole.definitions.get? name).map (name, ·) := by
    cases named : definitionName? m.ref with
    | none => rfl
    | some name =>
      rw [Option.bind_some, Option.bind_some]
      by_cases defined : name ∈ whole.definitions.keys
      · rw [h.get? ((h.links m isPlaced name defined named).trans ours)]
      · have absent : name ∉ part.definitions.keys := by
          rw [h.keys]
          exact fun inPart => defined (List.mem_filter.mp inPart).1
        rw [Table.get?_eq_none_iff.mpr defined, Table.get?_eq_none_iff.mpr absent]
  rw [Mention.link, Mention.link, Source.definition, Source.definition, same]

theorem mention_effect_eq {m : Mention} (isPlaced : IsPlaced whole.definitions m)
    (ours : mine m.source = true) : m.effect part = m.effect whole := by
  rw [Mention.effect, Mention.effect, h.link_eq isPlaced ours]
  cases link : m.link whole with
  | error fault => rfl
  | ok l =>
    obtain ⟨isSource, _, _, named, known⟩ := Mention.link_eq_ok.mp link
    have target := h.links m isPlaced l.target (Table.mem_keys_of_get? known) named
    rw [ok_bind, ok_bind, Link.effect, Link.effect, h.entityOf_eq (isSource ▸ ours),
      h.entityOf_eq (target.trans ours)]

theorem alternative_effect_eq {a : Alternative} (isAlternative : a ∈ alternatives whole.definitions)
    (ours : mine a.source = true) : a.effect part = a.effect whole := by
  rw [Alternative.effect, Alternative.effect]
  cases notPrimitive : a.schema.primitive with
  | some primitive => rfl
  | none =>
    cases mention : a.mention? with
    | none => rfl
    | some m =>
      refine h.mention_effect_eq (Or.inl ⟨a, isAlternative, notPrimitive, mention⟩) ?_
      obtain ⟨_, _, rfl⟩ := Option.map_eq_some_iff.mp mention
      exact ours

theorem member_effect_iff {m : Member} (isMember : m ∈ Build.members whole.definitions)
    (ours : mine m.name = true) {x : Effect} :
    m.effect files part = .ok x ↔ m.effect files whole = .ok x := by
  simp only [Member.effect, bind_eq_ok, h.members m isMember ours]

/-- The steps of the part are those of the whole that change its entities. -/
theorem effects_eq (does : effects files whole = .ok xs) :
    effects files part = .ok (xs.filter fun x => mine x.owner) := by
  obtain ⟨included, expanded, placed, first, second, third, rfl⟩ := effects_eq_ok does
  have first' := mapM_filter (fun x : Effect => mine x.owner)
    (fun m isMember ours _ => (h.member_effect_iff isMember ours).mpr)
    (fun _ _ found => by rw [Member.effect_owner found]) first
  have second' := mapM_filter (g := Alternative.effect part) (fun x : Effect => mine x.owner)
    (fun a isAlternative ours _ found => (h.alternative_effect_eq isAlternative ours).trans found)
    (fun _ _ found => by rw [Alternative.effect_owner found]) second
  have third' := mapM_filter (g := Mention.effect part) (fun x : Effect => mine x.owner)
    (fun m isMention ours _ found => (h.mention_effect_eq (Or.inr isMention) ours).trans found)
    (fun _ _ found => by rw [Mention.effect_owner found]) third
  rw [effects, h.members_eq, h.alternatives_eq, h.mentions_eq, first', ok_bind, second', ok_bind,
    third', ok_bind, List.filter_append, List.filter_append]
  rfl

end

/-- The whole has all steps if a part and the rest have theirs. -/
theorem exists_effects {rest : Source} {ys zs : List Effect} (h : whole.Part files mine part)
    (h' : whole.Part files (!mine ·) rest) (does : effects files part = .ok ys)
    (does' : effects files rest = .ok zs) : ∃ xs, effects files whole = .ok xs := by
  obtain ⟨_, _, _, first, second, third, _⟩ := effects_eq_ok does
  obtain ⟨_, _, _, first', second', third', _⟩ := effects_eq_ok does'
  rw [h.members_eq] at first
  rw [h.alternatives_eq] at second
  rw [h.mentions_eq] at third
  rw [h'.members_eq] at first'
  rw [h'.alternatives_eq] at second'
  rw [h'.mentions_eq] at third'
  obtain ⟨included, all⟩ := exists_mapM_of_filter
    (fun m isMember ours _ => (h.member_effect_iff isMember ours).mp)
    (fun m isMember others _ => (h'.member_effect_iff isMember (by simp [others])).mp) first first'
  obtain ⟨expanded, all'⟩ := exists_mapM_of_filter (f := Alternative.effect whole)
    (fun a isAlternative ours _ found =>
      (h.alternative_effect_eq isAlternative ours).symm.trans found)
    (fun a isAlternative others _ found =>
      (h'.alternative_effect_eq isAlternative (by simp [others])).symm.trans found) second second'
  obtain ⟨placed, all''⟩ := exists_mapM_of_filter (f := Mention.effect whole)
    (fun m isMention ours _ found => (h.mention_effect_eq (Or.inr isMention) ours).symm.trans found)
    (fun m isMention others _ found =>
      (h'.mention_effect_eq (Or.inr isMention) (by simp [others])).symm.trans found) third third'
  exact ⟨included ++ expanded ++ placed, by rw [effects, all, ok_bind, all', ok_bind, all'']; rfl⟩

/-! Keys. -/

section

variable (h : whole.Part files mine part)
include h

theorem effects_within (does : effects files whole = .ok xs) : ∀ x ∈ xs, x.Within mine := by
  intro x isEffect
  rcases placed_of_mem does isEffect with ⟨noKeys, _⟩ | ⟨m, isPlaced, placed⟩
  · exact ⟨by simp [noKeys], by simp [noKeys]⟩
  · obtain ⟨l, link, placed⟩ := bind_eq_ok.mp placed
    obtain ⟨isSource, _, _, named, known⟩ := Mention.link_eq_ok.mp link
    refine Link.effect_within placed ?_
    rw [isSource]
    exact h.links m isPlaced l.target (Table.mem_keys_of_get? known) named

/-- The pending keys of the part are those of the whole that point at the part. -/
theorem pending_eq (does : effects files whole = .ok xs) :
    (unbound files part (xs.filter fun x => mine x.owner)).pending =
      (unbound files whole xs).pending.filter fun key => mine key.target := by
  have within := h.effects_within does
  rw [unbound, unbound, pending_applyAll, pending_applyAll, filter_addPending,
    ← Table.flatMap_filter fun x isEffect key isKey => (within x isEffect).target key isKey]
  rfl

/-! Entities. -/

theorem get?_unbound_eq {name : String} (ours : mine name = true) :
    (unbound files part (xs.filter fun x => mine x.owner)).entities.get? name =
      (unbound files whole xs).entities.get? name := by
  have own : (xs.filter fun x => mine x.owner).filter (·.owner = name) =
      xs.filter (·.owner = name) := by
    rw [List.filter_filter]
    apply List.filter_congr
    intro x _
    by_cases isOwner : x.owner = name <;> simp [isOwner, ours]
  rw [get?_unbound, get?_unbound, h.get? ours, h.options, own]

theorem reference_eq {name : String} (ours : mine name = true) :
    (unbound files part (xs.filter fun x => mine x.owner)).reference name =
      (unbound files whole xs).reference name := by
  rw [State.reference, State.reference, h.get?_unbound_eq ours]

/-- Keys that point at the part reference the same in the part. -/
theorem bindAll_eq (does : effects files whole = .ok xs) {owner : KeyOwner}
    (ours : ∀ key ∈ (unbound files whole xs).pending, key.owner = owner → mine key.target = true)
    (columns : Table Column) :
    bindAll (unbound files part (xs.filter fun x => mine x.owner)).reference
        (keysOf owner (unbound files part (xs.filter fun x => mine x.owner)).pending) columns =
      bindAll (unbound files whole xs).reference
        (keysOf owner (unbound files whole xs).pending) columns := by
  rw [h.pending_eq does, keysOf_filter ours]
  apply bindAll_congr
  intro key isKey
  obtain ⟨isPending, isOwner⟩ := mem_keysOf.mp isKey
  exact h.reference_eq (ours key isPending isOwner)

theorem unbound_entities_eq : (unbound files part (xs.filter fun x => mine x.owner)).entities =
    (unbound files whole xs).entities.filter fun entry => mine entry.1 := by
  have unique : (unbound files whole xs).entities.keys.Nodup := by
    rw [keys_unbound]
    exact h.unique
  apply Table.eq_of_keys
  · rw [keys_unbound, h.keys, Table.keys_filter, keys_unbound]
  · exact Table.keys_filter_nodup unique mine
  · intro entry member
    obtain ⟨there, ours⟩ := List.mem_filter.mp member
    rw [h.get?_unbound_eq ours]
    exact (Table.get?_eq_some_iff unique).mpr there

/-- The entities of the part are those of the whole that belong to it. -/
theorem entities_eq (does : effects files whole = .ok xs) :
    ((unbound files part (xs.filter fun x => mine x.owner)).bound
        (unbound files part (xs.filter fun x => mine x.owner)).pending).entities =
      ((unbound files whole xs).bound (unbound files whole xs).pending).entities.filter
        fun entry => mine entry.1 := by
  rw [State.bound, State.bound, h.unbound_entities_eq]
  refine Table.map_filter mine ?_
  intro entry _ ours
  rw [bindEntity, bindEntity, h.bindAll_eq does]
  intro key isPending isOwner
  obtain ⟨x, isEffect, isKey⟩ := mem_pending_unbound.mp isPending
  have within := h.effects_within does x isEffect
  rw [within.target key isKey, ← within.entity key isKey entry.1 isOwner, ours]

end

/-! Join tables. -/

section

variable (h : whole.Part files mine part) (apart : TablesApart mine xs)
include h apart

/-- The join tables of the part are those of the whole that its links ask for. -/
theorem joinTables_eq (does : effects files whole = .ok xs) :
    ((unbound files part (xs.filter fun x => mine x.owner)).bound
        (unbound files part (xs.filter fun x => mine x.owner)).pending).joinTables =
      ((unbound files whole xs).bound (unbound files whole xs).pending).joinTables.filter
        fun entry => AsksFor mine xs entry.1 := by
  have unbound_eq : (unbound files part (xs.filter fun x => mine x.owner)).joinTables =
      (unbound files whole xs).joinTables.filter fun entry => AsksFor mine xs entry.1 := by
    rw [joinTables_unbound, joinTables_unbound, Table.filter_addAll, joinTablesOf_filter apart]
    rfl
  rw [State.bound, State.bound, unbound_eq]
  refine Table.map_filter (AsksFor mine xs) ?_
  intro entry _ asked
  rw [bindJoinTable, bindJoinTable, h.bindAll_eq does]
  intro key isPending isOwner
  obtain ⟨x, isEffect, isKey⟩ := mem_pending_unbound.mp isPending
  have owned := (effects_backed does x isEffect).owner key isKey
  rw [isOwner] at owned
  obtain ⟨t, joins, isName⟩ := owned
  obtain ⟨x', isEffect', ours, t', joins', isName'⟩ := asksFor_iff.mp asked
  rw [(h.effects_within does x isEffect).target key isKey,
    apart x isEffect x' isEffect' t t' joins joins' (isName.trans isName'.symm), ours]

end

/-! Tables. -/

theorem checkDefinitions_eq (h : whole.Part files mine part)
    (checked : checkDefinitions whole.definitions = .ok ()) :
    checkDefinitions part.definitions = .ok () := by
  rw [checkDefinitions_iff] at checked ⊢
  rw [h.definitions]
  exact fun definition member => checked definition (List.mem_filter.mp member).1

/-- What the part is built to, if the whole can be built. -/
theorem exists_tables (h : whole.Part files mine part) (apart : TablesApart mine xs)
    (checked : checkDefinitions whole.definitions = .ok ()) (does : effects files whole = .ok xs) :
    ∃ s, tables part { resolver := Resolver.fresh files } = .ok s ∧
      s.entities = ((unbound files whole xs).bound (unbound files whole xs).pending).entities.filter
        (fun entry => mine entry.1) ∧
      s.joinTables =
        ((unbound files whole xs).bound (unbound files whole xs).pending).joinTables.filter
          fun entry => AsksFor mine xs entry.1 := by
  have law := @tables_eq_bound files part h.keys_nodup
  rw [h.checkDefinitions_eq checked, ok_bind, h.effects_eq does] at law
  obtain ⟨s, built, entities, joinTables⟩ := law
  exact ⟨s, built, entities.trans (h.entities_eq does),
    joinTables.trans (h.joinTables_eq apart does)⟩

section

variable {rest : Source} (h : whole.Part files mine part) (h' : whole.Part files (!mine ·) rest)
include h h'

/-- The whole can be built if the part and the rest can. -/
theorem exists_tables_whole {s s' : State}
    (built : tables part { resolver := Resolver.fresh files } = .ok s)
    (built' : tables rest { resolver := Resolver.fresh files } = .ok s') :
    ∃ s, tables whole { resolver := Resolver.fresh files } = .ok s := by
  obtain ⟨checked, ys, does, _⟩ := tables_eq_ok h.keys_nodup built
  obtain ⟨checked', zs, does', _⟩ := tables_eq_ok h'.keys_nodup built'
  obtain ⟨xs, all⟩ := exists_effects h h' does does'
  have sound : checkDefinitions whole.definitions = .ok () := by
    rw [checkDefinitions_iff] at checked checked' ⊢
    rw [h.definitions] at checked
    rw [h'.definitions] at checked'
    intro definition member
    cases ours : mine definition.1 with
    | true => exact checked definition (List.mem_filter.mpr ⟨member, ours⟩)
    | false => exact checked' definition (List.mem_filter.mpr ⟨member, by simp [ours]⟩)
  have law := @tables_eq_bound files whole h.unique
  rw [sound, ok_bind, all] at law
  obtain ⟨s, built, _⟩ := law
  exact ⟨s, built⟩

/-- The part and the rest can be built if the whole can. Its tables are made of theirs. -/
theorem exists_tables_parts
    (apart : ∀ xs, effects files whole = .ok xs → TablesApart mine xs)
    {s : State} (built : tables whole { resolver := Resolver.fresh files } = .ok s) :
    ∃ s₁ s₂, tables part { resolver := Resolver.fresh files } = .ok s₁ ∧
      tables rest { resolver := Resolver.fresh files } = .ok s₂ ∧
      Table.Union s₁.entities s₂.entities s.entities ∧
      Table.Union s₁.joinTables s₂.joinTables s.joinTables := by
  obtain ⟨checked, xs, does, entities, joinTables⟩ := tables_eq_ok h.unique built
  have sides := apart xs does
  obtain ⟨s₁, built₁, entities₁, joinTables₁⟩ := h.exists_tables sides checked does
  obtain ⟨s₂, built₂, entities₂, joinTables₂⟩ := h'.exists_tables sides.not checked does
  refine ⟨s₁, s₂, built₁, built₂, ?_, ?_⟩
  · rw [entities, entities₁, entities₂]
    exact Table.union_of_filter fun _ _ => rfl
  · rw [joinTables, joinTables₁, joinTables₂]
    apply Table.union_of_filter
    intro name there
    rw [keys_bound_joinTables, Table.mem_keys_iff] at there
    obtain ⟨t, there⟩ := there
    obtain ⟨x, isEffect, joins, isName⟩ := exists_effect_of_joinTable there
    exact sides.asksFor_not ⟨x, isEffect, t, joins, isName⟩

end

end Source.Part

end ApiGraph.Build
