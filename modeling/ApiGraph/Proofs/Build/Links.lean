import ApiGraph.Proofs.Build.JoinTables

/-! The links of a description, and the relationships that they come to. A build places the links
of all alternatives and then those of all mentions. What a link adds to its source follows from the
link alone (`Link.added`), and under each name an entity has in the end what the last of its links
with that name added (`Made.relationships_eq`). A link back to a definition stands where the
evidence for it is read, if every reference that counts as evidence is one that is placed
(`exists_link_of_holdsBack`). -/

namespace ApiGraph.Build

variable {files : FileTree} {source : Source} {definitions : Table Schema} {xs : List Effect}

/-! The links of a description. -/

/-- The link of a reference, if it leads to a definition. -/
def Mention.links (source : Source) (m : Mention) : List Link := (m.link source).toOption.toList

/-- The link of an alternative. One of primitive type is a column and has none. -/
def Alternative.links (source : Source) (a : Alternative) : List Link :=
  match a.schema.primitive with
  | some _ => []
  | none => a.mention?.toList.flatMap (Mention.links source)

/-- All links that a build places, in the order in which it does. -/
def links (source : Source) : List Link :=
  (alternatives source.definitions).flatMap (Alternative.links source) ++
  (mentions source.definitions).flatMap (Mention.links source)

/-- The links from one definition to another. -/
def between (source : Source) (a b : String) : List Link :=
  (links source).filter fun l => l.source = a ∧ l.target = b

theorem Mention.mem_links {m : Mention} {l : Link} :
    l ∈ m.links source ↔ m.link source = .ok l := by
  rw [Mention.links]
  cases m.link source with
  | error fault => simp [Except.toOption]
  | ok l' => simp [Except.toOption, eq_comm (a := l)]

theorem Alternative.mem_links {a : Alternative} {l : Link} : l ∈ a.links source ↔
    a.schema.primitive = none ∧ ∃ m, a.mention? = some m ∧ m.link source = .ok l := by
  rw [Alternative.links]
  cases a.schema.primitive with
  | some primitive => simp
  | none => simp [Mention.mem_links]

theorem mem_links {l : Link} : l ∈ links source ↔
    ∃ m, IsPlaced source.definitions m ∧ m.link source = .ok l := by
  simp only [links, List.mem_append, List.mem_flatMap, Alternative.mem_links, Mention.mem_links]
  constructor
  · rintro (⟨a, isAlternative, notPrimitive, m, mention, link⟩ | ⟨m, isMention, link⟩)
    · exact ⟨m, Or.inl ⟨a, isAlternative, notPrimitive, mention⟩, link⟩
    · exact ⟨m, Or.inr isMention, link⟩
  · rintro ⟨m, ⟨a, isAlternative, notPrimitive, mention⟩ | isMention, link⟩
    · exact Or.inl ⟨a, isAlternative, notPrimitive, m, mention, link⟩
    · exact Or.inr ⟨m, isMention, link⟩

/-- In a description that compiles, the links are those from the places of its definitions. -/
theorem mem_links_iff_isOf (checked : checkDefinitions source.definitions = .ok ()) {l : Link} :
    l ∈ links source ↔ ∃ schema, l.IsOf source.definitions schema := by
  rw [mem_links]
  constructor
  · rintro ⟨m, isPlaced, link⟩
    obtain ⟨schema, held, target⟩ := (isPlaced_iff checked).mp isPlaced
    obtain ⟨isSource, isSite, isForward, named, known⟩ := Mention.link_eq_ok.mp link
    refine ⟨schema, ?_, ⟨m.ref, by rw [target, isForward], named⟩, known⟩
    rw [isSource, isSite]
    exact held
  · rintro ⟨schema, held, ⟨ref, target, named⟩, known⟩
    refine ⟨⟨l.source, l.site, ref, l.forward⟩,
      (isPlaced_iff checked).mpr ⟨schema, held, target⟩, ?_⟩
    exact Mention.link_eq_ok.mpr ⟨rfl, rfl, rfl, named, known⟩

theorem mem_between {a b : String} {l : Link} :
    l ∈ between source a b ↔ l ∈ links source ∧ l.source = a ∧ l.target = b := by
  simp [between]

/-- What a build places has a link, if the build succeeds. -/
theorem Mention.exists_link (does : effects files source = .ok xs) {m : Mention}
    (isPlaced : IsPlaced source.definitions m) : ∃ l, m.link source = .ok l := by
  obtain ⟨x, effect⟩ := exists_effect does isPlaced
  obtain ⟨l, link, _⟩ := bind_eq_ok.mp effect
  exact ⟨l, link⟩

theorem exists_link_of_placed (does : effects files source = .ok xs) {m : Mention}
    (isPlaced : IsPlaced source.definitions m) : ∃ l ∈ links source, l.source = m.source ∧
      l.site = m.site ∧ l.forward = m.forward ∧ definitionName? m.ref = some l.target := by
  obtain ⟨l, link⟩ := Mention.exists_link does isPlaced
  obtain ⟨isSource, isSite, isForward, named, _⟩ := Mention.link_eq_ok.mp link
  exact ⟨l, mem_links.mpr ⟨m, isPlaced, link⟩, isSource, isSite, isForward, named⟩

/-! What a link adds to its source. -/

/-- The relationship that a link adds, by the names of its two definitions. -/
def Link.added (l : Link) : Relationship where
  target := l.target
  cardinality := l.cardinality
  backReference :=
    if l.site = .definition ∨ l.cardinality = .oneToOne ∨ l.cardinality = .oneToMany then
      some (Naming.flat l.source)
    else none
  usesList := l.forward.isMany
  joinTable :=
    if l.cardinality = .manyToMany then some (tableName l.source l.target) else none

/-- The entry of a link in the relationships of its source. -/
def Link.entry (l : Link) : String × Relationship := (l.name, l.added)

theorem Link.relationship_eq_added {l : Link} {e f : Entity} {p : Link.Placement}
    (isSource : entityOf source l.source = .ok e) (isTarget : entityOf source l.target = .ok f)
    (placed : l.placement e f = .ok p) : l.relationship p = l.added := by
  have sourceLabel := label_of_entityOf isSource
  have targetLabel := label_of_entityOf isTarget
  rw [Link.placement] at placed
  cases cardinality : l.cardinality with
  | manyToMany =>
    simp only [cardinality] at placed
    split at placed
    · obtain rfl := Except.ok.inj placed
      simp [Link.relationship, Link.added, cardinality, tableName, sourceLabel, targetLabel]
    · cases placed
  | _ =>
    simp only [cardinality, Except.ok.injEq] at placed
    subst placed
    simp [Link.relationship, Link.added, cardinality, sourceLabel]

/-- An effect that adds to the relationships of its owner the entries of some links from there, and
changes no others. -/
structure Effect.Adds (x : Effect) (ls : List Link) : Prop where
  owned : ∀ l ∈ ls, l.source = x.owner
  relationships : ∀ e, (x.change e).relationships =
    Table.insertAll e.relationships ((ls.filter Link.addsRelationship).map Link.entry)

theorem Link.effect_adds {l : Link} {x : Effect} (does : l.effect source = .ok x) : x.Adds [l] := by
  obtain ⟨e, f, p, isSource, isTarget, placed, rfl⟩ := Link.effect_eq_ok does
  refine ⟨by simp, ?_⟩
  intro before
  by_cases adds : l.addsRelationship = true
  · have added := Link.relationship_eq_added isSource isTarget placed
    simp [adds, added, Entity.addRelationship, Table.insertAll, Link.entry]
  · simp [adds, Table.insertAll]

theorem Mention.effect_adds {m : Mention} {x : Effect} (does : m.effect source = .ok x) :
    x.Adds (m.links source) := by
  obtain ⟨l, link, does⟩ := bind_eq_ok.mp does
  have single : m.links source = [l] := by
    rw [Mention.links, link]
    rfl
  rw [single]
  exact Link.effect_adds does

theorem Alternative.effect_adds {a : Alternative} {x : Effect} (does : a.effect source = .ok x) :
    x.Adds (a.links source) := by
  rw [Alternative.effect] at does
  rw [Alternative.links]
  cases primitive : a.schema.primitive with
  | some primitive' =>
    rw [primitive] at does
    obtain rfl := Except.ok.inj does
    exact ⟨by simp, fun _ => rfl⟩
  | none =>
    rw [primitive] at does
    cases mention : a.mention? with
    | none =>
      rw [mention] at does
      cases does
    | some m =>
      rw [mention] at does
      simpa using Mention.effect_adds does

theorem Member.effect_adds {m : Member} {x : Effect} (does : m.effect files source = .ok x) :
    x.Adds [] := by
  obtain ⟨member, _, does⟩ := bind_eq_ok.mp does
  obtain rfl := Except.ok.inj does
  exact ⟨by simp, fun e => relationships_addScalarColumns e _ _⟩

/-- What a round adds to the relationships of an entity, if each step adds those of its links. -/
theorem relationships_round {α : Type} {effect : α → Except Fault Effect} (placed : α → List Link)
    {as : List α} (adds : ∀ a ∈ as, ∀ x, effect a = .ok x → x.Adds (placed a))
    (does : as.mapM effect = .ok xs) (name : String) (e : Entity) :
    (changeAll (xs.filter (·.owner = name)) e).relationships =
      Table.insertAll e.relationships ((((as.flatMap placed).filter (·.source = name)).filter
        Link.addsRelationship).map Link.entry) := by
  induction as generalizing xs e with
  | nil =>
    obtain rfl := Except.ok.inj does
    rfl
  | cons a rest ih =>
    obtain ⟨x, others, first, later, rfl⟩ := mapM_cons_eq_ok.mp does
    have step := adds a (by simp) x first
    have law := ih (fun b member => adds b (by simp [member])) later
    rw [List.flatMap_cons, List.filter_append, List.filter_append, List.map_append,
      Table.insertAll_append]
    by_cases own : x.owner = name
    · have mine : (placed a).filter (·.source = name) = placed a := by
        rw [List.filter_eq_self]
        intro l member
        simp [step.owned l member, own]
      rw [mine, ← step.relationships, ← law, List.filter_cons_of_pos (by simpa using own)]
      rfl
    · have others : (placed a).filter (·.source = name) = [] := by
        rw [List.filter_eq_nil_iff]
        intro l member
        simp [step.owned l member, own]
      rw [others, List.filter_cons_of_neg (by simpa using own)]
      exact law e

/-- The links that add a relationship to a definition, in the order in which they are placed. -/
def addedTo (source : Source) (name : String) : List Link :=
  ((links source).filter (·.source = name)).filter Link.addsRelationship

theorem mem_addedTo {name : String} {l : Link} : l ∈ addedTo source name ↔
    l ∈ links source ∧ l.source = name ∧ l.addsRelationship = true := by
  simp [addedTo, and_comm]

theorem relationships_effects (does : effects files source = .ok xs) (name : String) (e : Entity) :
    (changeAll (xs.filter (·.owner = name)) e).relationships =
      Table.insertAll e.relationships ((addedTo source name).map Link.entry) := by
  obtain ⟨included, expanded, placed, first, second, third, rfl⟩ := effects_eq_ok does
  have ofMembers := relationships_round (fun _ => []) (fun _ _ _ => Member.effect_adds) first name
  have ofAlternatives := relationships_round (Alternative.links source)
    (fun _ _ _ => Alternative.effect_adds) second name
  have ofMentions := relationships_round (Mention.links source)
    (fun _ _ _ => Mention.effect_adds) third name
  have split : changeAll ((included ++ expanded ++ placed).filter (·.owner = name)) e =
      changeAll (placed.filter (·.owner = name)) (changeAll (expanded.filter (·.owner = name))
        (changeAll (included.filter (·.owner = name)) e)) := by
    rw [List.filter_append, List.filter_append, changeAll, List.foldl_append, List.foldl_append]
    rfl
  have noLinks : (members source.definitions).flatMap (fun _ => ([] : List Link)) = [] := by simp
  rw [split, ofMentions, ofAlternatives, ofMembers, noLinks, addedTo, links, List.filter_append,
    List.filter_append, List.map_append, Table.insertAll_append]
  rfl

/-- The relationships of an entity are those that its links add; of links with one name the first
gives the place and the last the relationship. -/
theorem Made.relationships_eq {g : Graph} (made : Made files source xs g) {name : String}
    {e : Entity} (there : g.entities.get? name = some e) :
    e.relationships = Table.ofList ((addedTo source name).map Link.entry) := by
  rw [made.entities, get?_bound_entities, Option.map_eq_some_iff] at there
  obtain ⟨before, there, rfl⟩ := there
  rw [get?_unbound, Option.map_eq_some_iff] at there
  obtain ⟨schema, _, rfl⟩ := there
  have none : (madeEntity source.options (name, schema)).relationships = [] :=
    relationships_addScalarColumns _ _ _
  have all := relationships_effects made.does name (madeEntity source.options (name, schema))
  rw [none] at all
  exact all

/-- A link that adds a relationship, whose name no later link of its source takes. -/
def Link.Lasts (source : Source) (l : Link) : Prop :=
  ∃ before after, addedTo source l.source = before ++ l :: after ∧
    ∀ later ∈ after, later.name ≠ l.name

/-- An entity has the relationships of the links that last. -/
theorem Made.mem_relationships_iff {g : Graph} (made : Made files source xs g) {name : String}
    {e : Entity} (there : g.entities.get? name = some e) {key : String} {r : Relationship} :
    (key, r) ∈ e.relationships ↔
      ∃ l : Link, l.Lasts source ∧ l.source = name ∧ l.name = key ∧ l.added = r := by
  rw [made.relationships_eq there, Table.mem_ofList_iff]
  constructor
  · rintro ⟨before, after, split, absent⟩
    obtain ⟨first, rest, isSplit, _, mapped⟩ := List.map_eq_append_iff.mp split
    obtain ⟨l, last, rfl, isEntry, rfl⟩ := List.map_eq_cons_iff.mp mapped
    obtain ⟨rfl, rfl⟩ := Prod.mk.inj isEntry
    have isAdded : l ∈ addedTo source name := by simp [isSplit]
    obtain ⟨_, rfl, _⟩ := mem_addedTo.mp isAdded
    refine ⟨l, ⟨first, last, isSplit, ?_⟩, rfl, rfl, rfl⟩
    intro later member same
    exact absent (List.mem_map.mpr ⟨later.entry, List.mem_map_of_mem member, same⟩)
  · rintro ⟨l, ⟨before, after, split, unrepeated⟩, rfl, rfl, rfl⟩
    refine ⟨before.map Link.entry, after.map Link.entry, ?_, ?_⟩
    · rw [split, List.map_append, List.map_cons]
      rfl
    · intro member
      obtain ⟨entry, isEntry, same⟩ := List.mem_map.mp member
      obtain ⟨later, isLater, rfl⟩ := List.mem_map.mp isEntry
      exact unrepeated later isLater same

/-! Links and the evidence for them. -/

/-- The references of a property that are placed: its own, or those of its alternatives if it has
any. -/
def placedRefs (p : Schema) : List (String × Multiplicity) :=
  if p.oneOf.isEmpty then p.refTarget.toList
  else (p.oneOf.filter (·.primitive.isNone)).filterMap (·.refTarget)

/-- Every reference to a definition that counts as evidence in the properties of a schema is one
that is placed. -/
def PlacesEvidence (schema : Schema) (name : String) : Prop :=
  ∀ entry ∈ schema.properties, ∀ ref ∈ entry.2.references, definitionName? ref.1 = some name →
    ref ∈ placedRefs entry.2

instance (schema : Schema) (name : String) : Decidable (PlacesEvidence schema name) :=
  inferInstanceAs (Decidable (∀ entry ∈ schema.properties, ∀ ref ∈ entry.2.references,
    definitionName? ref.1 = some name → ref ∈ placedRefs entry.2))

/-- A reference of a property that is placed as such stands on the property. -/
theorem isPlaced_of_placedRefs {name property ref : String} {schema p : Schema} {m : Multiplicity}
    (defined : (name, schema) ∈ definitions) (isProperty : (property, p) ∈ schema.properties)
    (member : (ref, m) ∈ placedRefs p) :
    ∃ site, site.origin = some property ∧ IsPlaced definitions ⟨name, site, ref, m⟩ := by
  rw [placedRefs] at member
  by_cases plain : p.oneOf = []
  · refine ⟨.property property, rfl, Or.inr (mem_mentions.mpr ⟨name, schema, defined, Or.inr ?_⟩)⟩
    simp only [plain, List.isEmpty_nil, ↓reduceIte, Option.mem_toList] at member
    exact ⟨property, p, isProperty, plain, ref, m, member, rfl⟩
  · have choices : p.oneOf.isEmpty = false := by simpa using plain
    rw [choices] at member
    obtain ⟨choice, isChoice, target⟩ := List.mem_filterMap.mp member
    obtain ⟨isChoice, notPrimitive⟩ := List.mem_filter.mp isChoice
    refine ⟨.alternative (some property), rfl, Or.inl ⟨⟨name, some property, choice⟩, ?_, ?_, ?_⟩⟩
    · exact mem_alternatives.mpr
        ⟨name, schema, defined, Or.inr ⟨property, p, isProperty, choice, isChoice, rfl⟩⟩
    · simpa using notPrimitive
    · rw [Alternative.mention?, target]
      rfl

/-- What a link on a property refers to is among the references of the property. -/
theorem Link.IsOf.mem_references {l : Link} {schema : Schema} (isOf : l.IsOf definitions schema)
    {property : String} (onProperty : l.site.origin = some property) :
    ∃ whole p ref, (l.source, whole) ∈ definitions ∧ (property, p) ∈ whole.properties ∧
      (ref, l.forward) ∈ p.references ∧ definitionName? ref = some l.target := by
  obtain ⟨held, ⟨ref, target, named⟩, _⟩ := isOf
  generalize isSite : l.site = site at held onProperty
  cases held with
  | alternative | array => cases onProperty
  | propertyAlternative defined isProperty isChoice _ =>
    obtain rfl := Option.some.inj onProperty
    refine ⟨_, _, ref, defined, isProperty, ?_, named⟩
    exact List.mem_append_right _ (List.mem_filterMap.mpr ⟨schema, isChoice, target⟩)
  | property defined isProperty _ _ =>
    obtain rfl := Option.some.inj onProperty
    refine ⟨_, _, ref, defined, isProperty, ?_, named⟩
    exact List.mem_append_left _ (by simp [target])

namespace Made

variable {g : Graph}

theorem target_of_mem (made : Made files source xs g) {l : Link} (member : l ∈ links source) :
    (l.target, l.targetSchema) ∈ source.definitions := by
  obtain ⟨schema, isOf⟩ := (mem_links_iff_isOf made.checked).mp member
  exact Table.mem_of_get?_eq_some isOf.defined

/-- What the target holds back is placed as a link, if all evidence is. -/
theorem exists_link_of_holdsBack (made : Made files source xs g) {l : Link}
    (member : l ∈ links source) (places : PlacesEvidence l.targetSchema l.source)
    {m : Multiplicity} (holds : l.HoldsBack (some m)) :
    ∃ back ∈ between source l.target l.source, back.forward = m ∧ back.site.origin.isSome := by
  cases holds with
  | @first _ _ property p _ _ ref _ properties _ _ references _ back =>
    have isProperty : (property, p) ∈ l.targetSchema.properties := by simp [properties]
    have isReference : (ref, m) ∈ p.references := by simp [references]
    have placed := places _ isProperty _ isReference back
    obtain ⟨site, onProperty, isPlaced⟩ :=
      isPlaced_of_placedRefs (made.target_of_mem member) isProperty placed
    obtain ⟨l', isLink, isSource, isSite, isForward, named⟩ :=
      exists_link_of_placed made.does isPlaced
    have isTarget : l'.target = l.source := Option.some.inj (named.symm.trans back)
    refine ⟨l', mem_between.mpr ⟨isLink, isSource, isTarget⟩, isForward, ?_⟩
    rw [isSite]
    exact Option.isSome_of_eq_some onProperty

/-- A link back that stands on a property is evidence, if the property counts. -/
theorem exists_holdsBack_of_link (made : Made files source xs g) {l back : Link}
    (member : l ∈ links source) (isBack : back ∈ between source l.target l.source)
    {property : String} (onProperty : back.site.origin = some property)
    (counts : l.Counts property) : ∃ m, l.HoldsBack (some m) := by
  obtain ⟨isLink, isSource, isTarget⟩ := mem_between.mp isBack
  obtain ⟨schema, isOf⟩ := (mem_links_iff_isOf made.checked).mp isLink
  obtain ⟨whole, p, ref, defined, isProperty, isReference, named⟩ := isOf.mem_references onProperty
  have isWhole : whole = l.targetSchema := by
    have first := (Table.get?_eq_some_iff made.unique).mpr defined
    have second := (Table.get?_eq_some_iff made.unique).mpr (made.target_of_mem member)
    rw [isSource, second] at first
    exact (Option.some.inj first).symm
  obtain ⟨held, holds⟩ := exists_holdsBack l
  cases held with
  | some m => exact ⟨m, holds⟩
  | none =>
    cases holds with
    | never noBack =>
      rw [isWhole] at isProperty
      rw [isTarget] at named
      exact absurd named (noBack _ isProperty counts _ isReference)

end Made

end ApiGraph.Build
