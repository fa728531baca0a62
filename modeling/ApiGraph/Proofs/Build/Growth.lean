import ApiGraph.Proofs.Build.Insertions
import ApiGraph.Proofs.Build.Binding

/-! Entities only grow. A build goes over its definitions four times and over its keys once, and
one step of it is one definition or one key. A step changes no entity but that of its definition,
or the one that carries its key. It leaves what identifies an entity alone and loses no
relationship; a column goes only where a relationship of its name comes (`Entity.Grows`). What is
inserted on a visit is known from the definitions (`Visit.insertions`), and the visit does nothing
else to its entity (`State.Takes`). -/

namespace ApiGraph

open Build (Insertion insertAll)

namespace Entity

variable {e e' e'' : Entity} {is js : List Insertion}

/-- An entity afterwards is that from before and more, if what is given was inserted. -/
structure Grows (inserted : List Insertion) (before after : Entity) : Prop where
  /-- Name, resource, namespace, table name, primary key and description stay. -/
  bare : after.bare = before.bare
  relationships : before.relationships.keys ⊆ after.relationships.keys
  columns : ∀ name ∈ before.columns.keys, name ∉ after.columns.keys →
    ∃ i ∈ inserted, i.isRelationship = true ∧ i.name = name

theorem Grows.refl (e : Entity) (is : List Insertion) : e.Grows is e where
  bare := rfl
  relationships := List.Subset.refl _
  columns := fun _ there gone => absurd there gone

theorem Grows.trans (first : e.Grows is e') (second : e'.Grows js e'') :
    e.Grows (is ++ js) e'' where
  bare := second.bare.trans first.bare
  relationships := List.Subset.trans first.relationships second.relationships
  columns := by
    intro name there gone
    by_cases stays : name ∈ e'.columns.keys
    · obtain ⟨i, member, isNamed⟩ := second.columns name stays gone
      exact ⟨i, List.mem_append_right _ member, isNamed⟩
    · obtain ⟨i, member, isNamed⟩ := first.columns name there stays
      exact ⟨i, List.mem_append_left _ member, isNamed⟩

theorem grows_into (i : Insertion) (e : Entity) : e.Grows [i] (i.into e) := by
  cases content : i.content with
  | column column =>
    have after : i.into e = e.addColumn i.name column := by rw [Insertion.into, content]
    rw [after]
    refine ⟨rfl, List.Subset.refl _, fun name there gone => absurd ?_ gone⟩
    exact (Table.mem_keys_insert _ _ _ _).mpr (Or.inr there)
  | relationship relationship =>
    have after : i.into e = e.addRelationship i.name relationship := by
      rw [Insertion.into, content]
    rw [after]
    refine ⟨rfl, fun name there => (Table.mem_keys_insert _ _ _ _).mpr (Or.inr there), ?_⟩
    intro name there gone
    by_cases same : i.name = name
    · exact ⟨i, by simp, by simp [Insertion.isRelationship, content], same⟩
    · exact absurd (Table.mem_keys_erase_of_ne (Ne.symm same) there) gone

theorem grows_insertAll (is : List Insertion) (e : Entity) : e.Grows is (insertAll is e) := by
  induction is generalizing e with
  | nil => exact Grows.refl e []
  | cons i rest ih => exact (grows_into i e).trans (ih (i.into e))

end Entity

namespace Build

open Resolver (fresh)

variable {files : FileTree} {source : Source} {s t s' : State} {name : String} {schema : Schema}
  {made : Entity} {is js : List Insertion}

/-- How often a build goes over its definitions. -/
inductive Pass where
  | create
  | members
  | alternatives
  | references
deriving DecidableEq

def Pass.all : List Pass := [.create, .members, .alternatives, .references]

/-- One definition in one pass. -/
structure Visit where
  pass : Pass
  name : String
  schema : Schema

def Visit.run (source : Source) (s : State) (v : Visit) : Except Fault State :=
  match v.pass with
  | .create => createEntity source s (v.name, v.schema)
  | .members => v.schema.allOf.foldlM (includeMember source v.name v.schema) s
  | .alternatives =>
    (Alternative.ofDefinition v.name v.schema).foldlM (Alternative.expand source) s
  | .references => (Mention.ofDefinition v.name v.schema).foldlM (Mention.place source) s

def Pass.visits (definitions : Table Schema) (pass : Pass) : List Visit :=
  definitions.map fun (name, schema) => ⟨pass, name, schema⟩

/-- All visits of a build. -/
def visits (definitions : Table Schema) : List Visit := Pass.all.flatMap (Pass.visits definitions)

/-- What is inserted on a visit. -/
def Visit.insertions (files : FileTree) (source : Source) (v : Visit) : List Insertion :=
  match v.pass with
  | .create =>
    Insertion.ofScalars (fun property => some (.property property)) [v.schema] v.schema.properties
  | .members =>
    (v.schema.allOf.map (⟨v.name, v.schema, ·⟩)).flatMap (Member.insertions files source)
  | .alternatives =>
    (Alternative.ofDefinition v.name v.schema).flatMap (Alternative.insertions source)
  | .references => (Mention.ofDefinition v.name v.schema).flatMap (Mention.insertions source)

/-- The entity that carries a key, unless it is on a join table. -/
def KeyOwner.entity? : KeyOwner → Option String
  | .entity name => some name
  | .joinTable _ => none

/-- Of the entities only the owner is changed, and it only grows. -/
structure State.Grows (owner : Option String) (inserted : List Insertion) (before after : State) :
    Prop where
  others : ∀ name, owner ≠ some name → after.entities.get? name = before.entities.get? name
  each : ∀ name e, before.entities.get? name = some e →
    ∃ e', after.entities.get? name = some e' ∧ e.Grows inserted e'

/-- The entity with this name takes what is inserted, and no other entity changes. If there was
none, it is as it was made before. -/
structure State.Takes (made : Entity) (name : String) (inserted : List Insertion)
    (before after : State) : Prop where
  others : ∀ other ≠ name, after.entities.get? other = before.entities.get? other
  own : after.entities.get? name =
    some (insertAll inserted ((before.entities.get? name).getD made))

/-! States. -/

theorem State.Takes.grows (takes : s.Takes made name is s') : s.Grows (some name) is s' where
  others := by
    intro other isOther
    exact takes.others other fun same => isOther (congrArg some same.symm)
  each := by
    intro other e there
    by_cases here : other = name
    · subst here
      refine ⟨_, takes.own, ?_⟩
      rw [there]
      exact Entity.grows_insertAll is e
    · exact ⟨e, (takes.others other here).trans there, Entity.Grows.refl e is⟩

theorem State.Takes.refl {e : Entity} (there : s.entities.get? name = some e) :
    s.Takes made name [] s where
  others := fun _ _ => rfl
  own := by
    rw [there]
    rfl

theorem State.Takes.trans (first : s.Takes made name is t) (second : t.Takes made name js s') :
    s.Takes made name (is ++ js) s' where
  others := fun other isOther => (second.others other isOther).trans (first.others other isOther)
  own := by rw [second.own, first.own, Option.getD_some, insertAll_append]

/-! Visits. -/

/-- The first visit of a definition makes its entity. -/
theorem takes_create (unmade : s.entities.get? name = none)
    (ran : createEntity source s (name, schema) = .ok s') :
    s.Takes (Entity.ofDefinition name schema source.options) name
      (Visit.insertions files source ⟨.create, name, schema⟩) s' := by
  rw [createEntity_eq] at ran
  obtain ⟨_, _, ran⟩ := bind_eq_ok.mp ran
  obtain rfl := Except.ok.inj ran
  constructor
  · intro other isOther
    exact (Table.get?_insert _ _ _ _).trans (if_neg (Ne.symm isOther))
  · rw [unmade, Option.getD_none]
    exact (Table.get?_insert _ _ _ _).trans ((if_pos rfl).trans
      (congrArg some (addScalarColumns_eq _ _ _ _)))

/-- A step that follows its effect does to the entity what the effect inserts. -/
theorem takes_of_follows (made : Entity) {run : Except Fault State}
    {effect : Except Fault Effect} (fits : Fits files source s)
    (defined : name ∈ source.definitions.keys) (follows : Follows files effect s run)
    (mild : ∀ x, effect = .ok x → x.Mild) (owner : ∀ x, effect = .ok x → x.owner = name)
    (inserts : ∀ x, effect = .ok x → x.Inserts is) (ran : run = .ok s') :
    Fits files source s' ∧ s.Takes made name is s' := by
  cases does : effect with
  | error fault =>
    rw [does] at follows
    cases ran.symm.trans follows
  | ok x =>
    rw [does] at follows
    obtain ⟨r, consistent, same⟩ := follows
    obtain rfl := Except.ok.inj (ran.symm.trans same)
    obtain rfl := owner x does
    obtain ⟨e, there⟩ := fits.exists_entity defined
    refine ⟨fits.apply (mild x does) consistent, fun other isOther => ?_, ?_⟩
    · exact (Table.get?_amend _ _ _ _).trans (if_neg (Ne.symm isOther))
    · refine (Table.get?_amend _ _ _ _).trans ((if_pos rfl).trans ?_)
      rw [there, Option.map_some, Option.getD_some, inserts x does]

/-- The steps of a visit do what they insert one after the other. -/
theorem takes_foldlM (made : Entity) {α : Type} {as : List α}
    {step : State → α → Except Fault State} {effect : α → Except Fault Effect}
    {inserted : α → List Insertion} (fits : Fits files source s)
    (defined : name ∈ source.definitions.keys)
    (follows : ∀ a ∈ as, ∀ s, Fits files source s → Follows files (effect a) s (step s a))
    (mild : ∀ a x, effect a = .ok x → x.Mild)
    (owner : ∀ a ∈ as, ∀ x, effect a = .ok x → x.owner = name)
    (inserts : ∀ a x, effect a = .ok x → x.Inserts (inserted a))
    (ran : as.foldlM step s = .ok s') :
    Fits files source s' ∧ s.Takes made name (as.flatMap inserted) s' := by
  induction as generalizing s with
  | nil =>
    obtain rfl := Except.ok.inj ran
    obtain ⟨e, there⟩ := fits.exists_entity defined
    exact ⟨fits, .refl there⟩
  | cons a rest ih =>
    obtain ⟨t, first, later⟩ := bind_eq_ok.mp ran
    obtain ⟨fits, takes⟩ := takes_of_follows made fits defined (follows a (by simp) s fits)
      (mild a) (owner a (by simp)) (inserts a) first
    obtain ⟨fits, rests⟩ := ih fits (fun b member => follows b (by simp [member]))
      (fun b member => owner b (by simp [member])) later
    exact ⟨fits, takes.trans rests⟩

/-- A visit in a later pass inserts what it should, and all entities stay those of the
definitions. -/
theorem takes_visit (made : Entity) {v : Visit} (fits : Fits files source s)
    (isLater : v.pass ≠ .create) (defined : v.name ∈ source.definitions.keys)
    (ran : v.run source s = .ok s') :
    Fits files source s' ∧ s.Takes made v.name (v.insertions files source) s' := by
  obtain ⟨pass, name, schema⟩ := v
  cases pass with
  | create => cases isLater rfl
  | members =>
    have steps : (schema.allOf.map (⟨name, schema, ·⟩ : Schema → Member)).foldlM
        (fun s m => includeMember source m.name m.schema s m.member) s = .ok s' := by
      rw [List.foldlM_map]
      exact ran
    refine takes_foldlM made fits defined ?_ (fun _ _ => Member.effect_mild) ?_
      (fun _ _ => Member.effect_inserts) steps
    · intro m isMember s fits
      obtain ⟨_, _, rfl⟩ := List.mem_map.mp isMember
      exact follows_member fits defined
    · intro m isMember x does
      obtain ⟨_, _, rfl⟩ := List.mem_map.mp isMember
      exact Member.effect_owner does
  | alternatives =>
    have own : ∀ a ∈ Alternative.ofDefinition name schema, a.source = name :=
      fun a member => @source_of_ofDefinition (name, schema) a member
    refine takes_foldlM made fits defined ?_ (fun _ _ => Alternative.effect_mild) ?_
      (fun _ _ => Alternative.effect_inserts) ran
    · exact fun a member s fits => follows_alternative fits (own a member ▸ defined)
    · exact fun a member x does => (Alternative.effect_owner does).trans (own a member)
  | references =>
    refine takes_foldlM made fits defined (fun m _ s fits => follows_mention fits m)
      (fun _ _ => Mention.effect_mild) ?_ (fun _ _ => Mention.effect_inserts) ran
    intro m member x does
    exact (Mention.effect_owner does).trans (@source_of_mention (name, schema) m member)

/-! Keys. -/

theorem grows_bindColumn (e : Entity) (column target : String) :
    e.Grows [] { e with columns := bindColumn e.columns column target } where
  bare := rfl
  relationships := List.Subset.refl _
  columns := by
    intro name there gone
    refine absurd ?_ gone
    rw [keys_bindColumn]
    split
    · exact there
    · exact List.mem_append_left _ there

theorem grows_bindKey {key : PendingKey} (ran : bindKey s key = .ok s') :
    s.Grows key.owner.entity? [] s' := by
  rw [bindKey] at ran
  split at ran
  · split at ran
    · rename_i owner isOwner
      rw [isOwner]
      obtain ⟨e, found, ran⟩ := bind_eq_ok.mp ran
      obtain rfl := Except.ok.inj ran
      have there : s.entities.get? owner = some e := by
        rw [State.entity] at found
        split at found
        · rwa [← Except.ok.inj found]
        · cases found
      constructor
      · intro other isOther
        refine (Table.get?_insert _ _ _ _).trans (if_neg fun same => isOther ?_)
        exact congrArg some same
      · intro other e' isThere
        by_cases here : owner = other
        · subst here
          obtain rfl := Option.some.inj (there.symm.trans isThere)
          exact ⟨_, (Table.get?_insert _ _ _ _).trans (if_pos rfl), grows_bindColumn e _ _⟩
        · exact ⟨e', (Table.get?_insert _ _ _ _).trans ((if_neg here).trans isThere), .refl e' []⟩
    · split at ran
      · obtain rfl := Except.ok.inj ran
        exact ⟨fun _ _ => rfl, fun _ e there => ⟨e, there, .refl e []⟩⟩
      · cases ran
  · cases ran

/-! Runs. -/

theorem tables_eq_visits (source : Source) (s : State) : tables source s =
    (visits source.definitions).foldlM (Visit.run source) s >>= bindKeys := by
  have creates : ∀ s, (Pass.create.visits source.definitions).foldlM (Visit.run source) s =
      createEntities source s := fun _ => List.foldlM_map
  have includes : ∀ s, (Pass.members.visits source.definitions).foldlM (Visit.run source) s =
      includeMembers source s := fun _ => List.foldlM_map
  have expands : ∀ s, (Pass.alternatives.visits source.definitions).foldlM (Visit.run source) s =
      expandAlternatives source s := fun _ => List.foldlM_map.trans foldlM_flatMap.symm
  have places : ∀ s, (Pass.references.visits source.definitions).foldlM (Visit.run source) s =
      placeMentions source s := fun _ => List.foldlM_map.trans foldlM_flatMap.symm
  simp only [visits, Pass.all, List.flatMap_cons, List.flatMap_nil, List.append_nil,
    List.foldlM_append, creates, includes, expands, places, tables, bind_assoc]

/-- All visits but the first of each definition. -/
def laterVisits (definitions : Table Schema) : List Visit :=
  Pass.members.visits definitions ++ Pass.alternatives.visits definitions ++
    Pass.references.visits definitions

theorem visits_eq (definitions : Table Schema) :
    visits definitions = Pass.create.visits definitions ++ laterVisits definitions := by
  simp [visits, Pass.all, laterVisits]

theorem mem_laterVisits {definitions : Table Schema} {v : Visit}
    (h : v ∈ laterVisits definitions) : v.pass ≠ .create ∧ v.name ∈ definitions.keys := by
  have ofPass : ∀ pass, v ∈ Pass.visits definitions pass →
      v.pass = pass ∧ v.name ∈ definitions.keys := by
    intro pass isVisit
    obtain ⟨definition, member, rfl⟩ := List.mem_map.mp isVisit
    exact ⟨rfl, List.mem_map.mpr ⟨definition, member, rfl⟩⟩
  rcases List.mem_append.mp h with h | h
  · rcases List.mem_append.mp h with h | h
    · exact ⟨(ofPass _ h).1 ▸ by decide, (ofPass _ h).2⟩
    · exact ⟨(ofPass _ h).1 ▸ by decide, (ofPass _ h).2⟩
  · exact ⟨(ofPass _ h).1 ▸ by decide, (ofPass _ h).2⟩

/-- Later visits leave the entities those of the definitions. -/
theorem fits_laterVisits {vs : List Visit} (fits : Fits files source s)
    (later : ∀ v ∈ vs, v ∈ laterVisits source.definitions)
    (ran : vs.foldlM (Visit.run source) s = .ok s') : Fits files source s' := by
  induction vs generalizing s with
  | nil =>
    obtain rfl := Except.ok.inj ran
    exact fits
  | cons v rest ih =>
    obtain ⟨t, first, ran⟩ := bind_eq_ok.mp ran
    obtain ⟨isLater, defined⟩ := mem_laterVisits (later v (by simp))
    have fits := (takes_visit (.ofDefinition v.name v.schema source.options) fits isLater defined
      first).1
    exact ih fits (fun w member => later w (by simp [member])) ran

theorem createVisits_foldlM (definitions : Table Schema) (s : State) :
    (Pass.create.visits definitions).foldlM (Visit.run source) s =
      definitions.foldlM (createEntity source) s := List.foldlM_map

/-- A visit is the first of its definition, or all definitions were visited before. -/
theorem visits_split {definitions : Table Schema} {before after : List Visit} {v : Visit}
    (split : visits definitions = before ++ v :: after) :
    (∃ earlier rest, definitions = earlier ++ (v.name, v.schema) :: rest ∧ v.pass = .create ∧
      before = Pass.create.visits earlier) ∨
    ∃ more, before = Pass.create.visits definitions ++ more ∧
      laterVisits definitions = more ++ v :: after := by
  rw [visits_eq, List.append_eq_append_iff] at split
  rcases split with ⟨more, first, rest⟩ | ⟨more, first, rest⟩
  · exact Or.inr ⟨more, first, rest⟩
  · cases more with
    | nil =>
      rw [List.append_nil] at first
      exact Or.inr ⟨[], by rw [first, List.append_nil], rest.symm⟩
    | cons w more =>
      obtain ⟨rfl, _⟩ := List.cons.inj rest
      obtain ⟨earlier, others, rfl, isBefore, isRest⟩ := List.map_eq_append_iff.mp first
      obtain ⟨definition, later, rfl, rfl, _⟩ := List.map_eq_cons_iff.mp isRest
      exact Or.inl ⟨earlier, later, rfl, rfl, isBefore.symm⟩

/-- Every visit of a build inserts what it should. -/
theorem takes_of_visits (unique : source.definitions.keys.Nodup) {before after : List Visit}
    {v : Visit} (split : visits source.definitions = before ++ v :: after)
    (reached : before.foldlM (Visit.run source) { resolver := fresh files } = .ok s)
    (ran : v.run source s = .ok s') :
    s.Takes (.ofDefinition v.name v.schema source.options) v.name (v.insertions files source)
      s' := by
  rcases visits_split split with ⟨earlier, rest, isSplit, isFirst, rfl⟩ | ⟨more, rfl, isLater⟩
  · obtain ⟨pass, name, schema⟩ := v
    obtain rfl : pass = .create := isFirst
    rw [isSplit, Table.keys, List.map_append] at unique
    obtain ⟨uniqueEarlier, _, apart⟩ := List.nodup_append.mp unique
    -- So far the build is that of the earlier definitions alone.
    rw [createVisits_foldlM] at reached
    have made := (@createEntities_eq { source with definitions := earlier } uniqueEarlier
      (fresh files)).symm.trans reached
    obtain ⟨_, _, made⟩ := bind_eq_ok.mp made
    obtain rfl := Except.ok.inj made
    refine takes_create (Table.get?_eq_none_iff.mpr fun there => ?_) ran
    have isEarlier : name ∈ Table.keys earlier := by simpa [created, Table.keys] using there
    exact apart name isEarlier name (by simp) rfl
  · rw [List.foldlM_append, createVisits_foldlM] at reached
    obtain ⟨t, creates, reached⟩ := bind_eq_ok.mp reached
    have creates := (createEntities_eq unique (fresh files)).symm.trans creates
    obtain ⟨_, _, creates⟩ := bind_eq_ok.mp creates
    obtain rfl := Except.ok.inj creates
    have fits := fits_laterVisits (fits_created (Resolver.consistent_fresh files))
      (fun w member => isLater ▸ List.mem_append_left _ member) reached
    have member : v ∈ laterVisits source.definitions := by simp [isLater]
    obtain ⟨isLater, defined⟩ := mem_laterVisits member
    exact (takes_visit _ fits isLater defined ran).2

/-- **Entities only grow.** A build of tables is its visits in order, and then its keys. On every
visit the entity of the definition takes what is inserted, and it only grows by that. Every key
lets the entity grow that carries it, and nothing is inserted there. -/
theorem entities_grow (unique : source.definitions.keys.Nodup) :
    (∀ s, tables source s = (visits source.definitions).foldlM (Visit.run source) s >>= bindKeys) ∧
    (∀ before v after s s', visits source.definitions = before ++ v :: after →
      before.foldlM (Visit.run source) { resolver := fresh files } = .ok s →
      v.run source s = .ok s' →
      s.Takes (.ofDefinition v.name v.schema source.options) v.name (v.insertions files source)
        s' ∧ s.Grows (some v.name) (v.insertions files source) s') ∧
    ∀ s key s', bindKey s key = .ok s' → s.Grows key.owner.entity? [] s' := by
  refine ⟨tables_eq_visits source, ?_, fun s key s' => grows_bindKey⟩
  intro before v after s s' split reached ran
  have takes := takes_of_visits unique split reached ran
  exact ⟨takes, takes.grows⟩

/-- A book with a column for its author from a member of its `allOf`, and a reference to the author
under the same name. -/
def novel : Description where
  document := .object [("components", .object [("schemas", .object [
    ("Book", .object [
      ("properties", .object [
        ("title", .object [("type", .string "string")]),
        ("author", .object [("$ref", .string "#/components/schemas/Author")])]),
      ("allOf", .array [.object [("properties", .object [
        ("author", .object [("type", .string "string")])])]])]),
    ("Author", .object [("properties", .object [
      ("name", .object [("type", .string "string")])])])])])]

/-- The relationship takes the place of the column, and the key comes later. -/
theorem novel_grows : ∃ source book author s s' s'' e e' e'', Source.of novel {} = .ok source ∧
    source.definitions = [("Book", book), ("Author", author)] ∧
    (Pass.create.visits source.definitions ++ Pass.members.visits source.definitions ++
      Pass.alternatives.visits source.definitions).foldlM (Visit.run source)
        { resolver := fresh {} } = .ok s ∧
    Visit.run source s ⟨.references, "Book", book⟩ = .ok s' ∧
    s.Grows (some "Book") (Visit.insertions {} source ⟨.references, "Book", book⟩) s' ∧
    bindKey s' ⟨.entity "Book", "author_id", "Author"⟩ = .ok s'' ∧
    s'.Grows (some "Book") [] s'' ∧
    s.entities.get? "Book" = some e ∧ s'.entities.get? "Book" = some e' ∧
    s''.entities.get? "Book" = some e'' ∧
    e.columns.keys = ["title", "author"] ∧ e.relationships.keys = [] ∧
    e'.columns.keys = ["title"] ∧ e'.relationships.keys = ["author"] ∧
    e''.columns.keys = ["title", "author_id"] ∧ e''.relationships.keys = ["author"] := by
  have run : (Source.of novel {} >>= fun source =>
      (Pass.create.visits source.definitions ++ Pass.members.visits source.definitions ++
        Pass.alternatives.visits source.definitions).foldlM (Visit.run source)
          { resolver := fresh {} } >>= fun s =>
      Visit.run source s
        ⟨.references, "Book", (source.definitions.get? "Book").getD {}⟩ >>= fun s' =>
      bindKey s' ⟨.entity "Book", "author_id", "Author"⟩ >>= fun s'' =>
      Except.ok (source, s, s', s'')).toOption.map
        (fun (source, s, s', s'') => (source.definitions.keys, [s, s', s''].map fun s =>
          (s.entities.get? "Book").map fun e => [e.columns.keys, e.relationships.keys])) =
      some (["Book", "Author"], [some [["title", "author"], []], some [["title"], ["author"]],
        some [["title", "author_id"], ["author"]]]) := by
    decide +kernel
  obtain ⟨_, run, shape⟩ := exists_ok_of_map run
  obtain ⟨source, isSource, run⟩ := bind_eq_ok.mp run
  obtain ⟨s, before, run⟩ := bind_eq_ok.mp run
  obtain ⟨s', visited, run⟩ := bind_eq_ok.mp run
  obtain ⟨s'', bound, ⟨⟩⟩ := bind_eq_ok.mp run
  obtain ⟨names, shape⟩ := Prod.mk.inj shape
  obtain ⟨book, author, definitions⟩ : ∃ book author,
      source.definitions = [("Book", book), ("Author", author)] := by
    match source.definitions, names with
    | [(_, book), (_, author)], rfl => exact ⟨book, author, rfl⟩
  have isBook : (source.definitions.get? "Book").getD {} = book := by rw [definitions]; rfl
  rw [isBook] at visited
  obtain ⟨first, shape⟩ := List.cons.inj shape
  obtain ⟨second, shape⟩ := List.cons.inj shape
  obtain ⟨third, _⟩ := List.cons.inj shape
  obtain ⟨e, there, first⟩ := Option.map_eq_some_iff.mp first
  obtain ⟨e', there', second⟩ := Option.map_eq_some_iff.mp second
  obtain ⟨e'', there'', third⟩ := Option.map_eq_some_iff.mp third
  have unique : source.definitions.keys.Nodup := by rw [names]; decide
  have split : visits source.definitions =
      (Pass.create.visits source.definitions ++ Pass.members.visits source.definitions ++
        Pass.alternatives.visits source.definitions) ++
      ⟨.references, "Book", book⟩ :: [⟨.references, "Author", author⟩] := by
    simp [visits, Pass.all, Pass.visits, definitions]
  obtain ⟨_, visits, keys⟩ := @entities_grow {} source unique
  refine ⟨source, book, author, s, s', s'', e, e', e'', isSource, definitions, before, visited,
    (visits _ _ _ s s' split before visited).2, bound, keys s' _ s'' bound, there, there',
    there'', ?_⟩
  simp_all

end Build

end ApiGraph
