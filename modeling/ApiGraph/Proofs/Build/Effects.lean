import ApiGraph.Build.Graph
import ApiGraph.Proofs.Resolver.Outcome

/-! What the steps of a build do. After its entities are made, every step changes one entity and
may record keys and a join table. Which entity, how and which keys follow from the definitions
alone, since a step reads nothing of an entity but what was fixed when it was made: that is the
`Effect` of the step. A build fails where a step has no effect, and otherwise comes to the entities
with all effects applied in order (`tables_eq`). -/

namespace ApiGraph

/-- What identifies an entity, without its columns and relationships. -/
def Entity.bare (e : Entity) : Entity := { e with columns := [], relationships := [] }

namespace Build

open Resolver (Consistent outcomeOf)

/-- What one step of a build does. -/
structure Effect where
  /-- The entity that is changed. -/
  owner : String
  change : Entity → Entity
  keys : List PendingKey := []
  joinTable : Option JoinTable := none

/-- Keys that are recorded behind those that are pending, none of them twice. -/
def addPending (pending keys : List PendingKey) : List PendingKey :=
  keys.foldl (fun pending key => if key ∈ pending then pending else pending ++ [key]) pending

/-- A state with what else was loaded. -/
def State.withResolver (s : State) (r : Resolver) : State :=
  ⟨s.entities, s.joinTables, s.pending, r⟩

def Effect.apply (s : State) (x : Effect) : State :=
  { s with
    entities := Table.amend s.entities x.owner x.change
    joinTables := Link.putJoinTable s.joinTables x.joinTable
    pending := addPending s.pending x.keys }

theorem deferKey_foldl (keys : List PendingKey) (s : State) :
    keys.foldl State.deferKey s = { s with pending := addPending s.pending keys } := by
  induction keys generalizing s with
  | nil => rfl
  | cons key rest ih =>
    rw [List.foldl_cons, ih, State.deferKey]
    by_cases present : key ∈ s.pending
    · simp [addPending, present]
    · simp [addPending, present]

/-! The effects of the steps. -/

/-- The member of an `allOf`, or what it refers to. -/
def memberSchema (files : FileTree) (source : Source) (member : Schema) : Except Fault Schema :=
  match member.ref with
  | some ref => do
    let target ← outcomeOf files source.scope ref
    (Schema.ofJson target.node).mapError (.malformed (.definition target.name))
  | none => .ok member

/-- A member of the `allOf` of a definition. -/
structure Member where
  name : String
  schema : Schema
  member : Schema

def members (definitions : Table Schema) : List Member :=
  definitions.flatMap fun (name, schema) => schema.allOf.map (⟨name, schema, ·⟩)

def Member.effect (files : FileTree) (source : Source) (m : Member) : Except Fault Effect := do
  let member ← memberSchema files source m.member
  return {
    owner := m.name
    change := fun e => addScalarColumns e [m.schema, member] member.properties }

/-- The entity of a definition as it was made, by its name. -/
def entityOf (source : Source) (name : String) : Except Fault Entity :=
  match source.definitions.get? name with
  | some schema => .ok (Entity.ofDefinition name schema source.options)
  | none => .error (.unknownDefinition name name)

def Link.effect (source : Source) (l : Link) : Except Fault Effect := do
  let p ← l.placement (← entityOf source l.source) (← entityOf source l.target)
  return {
    owner := l.source
    change := if l.addsRelationship then (·.addRelationship l.name (l.relationship p)) else id
    keys := p.keys
    joinTable := p.joinTable }

def Mention.effect (source : Source) (m : Mention) : Except Fault Effect := do
  Link.effect source (← m.link source)

def Alternative.effect (source : Source) (a : Alternative) : Except Fault Effect :=
  match a.schema.primitive with
  | some primitive =>
    .ok { owner := a.source
          change := (·.addColumn (a.columnName primitive) (.ofSchema primitive a.schema true)) }
  | none =>
    match a.mention? with
    | some m => m.effect source
    | none => .error (.unsupportedShape (a.site.owner a.source) .alternative)

/-- The effects of all steps, in their order. -/
def effects (files : FileTree) (source : Source) : Except Fault (List Effect) := do
  let included ← (members source.definitions).mapM (Member.effect files source)
  let expanded ← (alternatives source.definitions).mapM (Alternative.effect source)
  let placed ← (mentions source.definitions).mapM (Mention.effect source)
  return included ++ expanded ++ placed

/-! Changes leave what identifies an entity alone. -/

/-- What holds of an entity, and still holds when a column is added that is no foreign key, holds
of it with the columns of its scalar properties. -/
theorem addScalarColumns_induction {motive : Entity → Prop} {e : Entity} (start : motive e)
    (added : ∀ e name (column : Column), column.foreignKey = none → motive e →
      motive (e.addColumn name column))
    (requiredBy : List Schema) (properties : List (String × Schema)) :
    motive (addScalarColumns e requiredBy properties) := by
  rw [addScalarColumns]
  apply List.foldlRecOn properties _ start
  rintro e holds ⟨name, property⟩ _
  dsimp only
  cases property.primitive with
  | none => exact holds
  | some primitive => exact added e _ _ rfl holds

theorem bare_addScalarColumns (e : Entity) (requiredBy : List Schema)
    (properties : List (String × Schema)) :
    (addScalarColumns e requiredBy properties).bare = e.bare :=
  addScalarColumns_induction (motive := fun e' => e'.bare = e.bare) rfl
    (fun _ _ _ _ same => same) requiredBy properties

/-- An effect that leaves what identifies an entity alone. -/
def Effect.Mild (x : Effect) : Prop := ∀ e, (x.change e).bare = e.bare

theorem Member.effect_mild {files : FileTree} {source : Source} {m : Member} {x : Effect}
    (h : m.effect files source = .ok x) : x.Mild := by
  obtain ⟨member, _, h⟩ := bind_eq_ok.mp h
  cases h
  exact fun e => bare_addScalarColumns e _ _

theorem Link.effect_eq_ok {source : Source} {l : Link} {x : Effect}
    (h : l.effect source = .ok x) : ∃ e f p, entityOf source l.source = .ok e ∧
      entityOf source l.target = .ok f ∧ l.placement e f = .ok p ∧ x = {
        owner := l.source
        change := if l.addsRelationship then (·.addRelationship l.name (l.relationship p)) else id
        keys := p.keys
        joinTable := p.joinTable } := by
  obtain ⟨e, source, h⟩ := bind_eq_ok.mp h
  obtain ⟨f, target, h⟩ := bind_eq_ok.mp h
  obtain ⟨p, placed, h⟩ := bind_eq_ok.mp h
  cases h
  exact ⟨e, f, p, source, target, placed, rfl⟩

theorem Link.effect_mild {source : Source} {l : Link} {x : Effect}
    (h : l.effect source = .ok x) : x.Mild := by
  obtain ⟨e, f, p, _, _, _, rfl⟩ := Link.effect_eq_ok h
  intro e
  by_cases adds : l.addsRelationship = true
  · simp only [adds, ↓reduceIte]
    rfl
  · simp only [adds, Bool.false_eq_true, ↓reduceIte]
    rfl

theorem Mention.effect_mild {source : Source} {m : Mention} {x : Effect}
    (h : m.effect source = .ok x) : x.Mild := by
  obtain ⟨l, _, h⟩ := bind_eq_ok.mp h
  exact Link.effect_mild h

theorem Alternative.effect_mild {source : Source} {a : Alternative} {x : Effect}
    (h : a.effect source = .ok x) : x.Mild := by
  rw [Alternative.effect] at h
  split at h
  · cases h
    exact fun _ => rfl
  · split at h
    · exact Mention.effect_mild h
    · cases h

/-! Steps and their effects. -/

/-- The entities of a state are those of the definitions, up to what was added to them. -/
structure Fits (files : FileTree) (source : Source) (s : State) : Prop where
  consistent : Consistent files s.resolver
  entities : ∀ name, (s.entities.get? name).map Entity.bare =
    (source.definitions.get? name).map (Entity.ofDefinition name · source.options)

/-- A run does what the effect says, and may load files besides. -/
def Follows (files : FileTree) (effect : Except Fault Effect) (s : State)
    (run : Except Fault State) : Prop :=
  match effect with
  | .ok x => ∃ r, Consistent files r ∧ run = .ok ((x.apply s).withResolver r)
  | .error fault => run = .error fault

variable {files : FileTree} {source : Source} {s : State}

theorem Fits.apply (h : Fits files source s) {x : Effect} (mild : x.Mild) {r : Resolver}
    (consistent : Consistent files r) : Fits files source ((x.apply s).withResolver r) where
  consistent
  entities := by
    intro name
    rw [← h.entities name]
    simp only [Effect.apply, State.withResolver]
    rw [Table.get?_amend]
    split
    · rw [Option.map_map]
      congr 1
      exact funext mild
    · rfl

theorem Fits.entity (h : Fits files source s) (name : String) :
    (s.entity name).map Entity.bare = entityOf source name := by
  have same := h.entities name
  rw [State.entity, entityOf]
  cases found : s.entities.get? name with
  | none =>
    rw [found, Option.map_none] at same
    rw [Option.map_eq_none_iff.mp same.symm]
    rfl
  | some e =>
    rw [found, Option.map_some] at same
    obtain ⟨schema, defined, made⟩ := Option.map_eq_some_iff.mp same.symm
    simp only [defined, made]
    rfl

theorem Fits.exists_entity (h : Fits files source s) {name : String}
    (defined : name ∈ source.definitions.keys) : ∃ e, s.entities.get? name = some e := by
  obtain ⟨schema, found⟩ := Table.mem_keys_iff.mp defined
  have same := h.entities name
  rw [found, Option.map_some, Option.map_eq_some_iff] at same
  obtain ⟨e, there, _⟩ := same
  exact ⟨e, there⟩

/-- A step that changes an entity that is there, and nothing else. -/
theorem modifyEntity_eq {name : String} (there : ∃ e, s.entities.get? name = some e)
    (change : Entity → Entity) :
    s.modifyEntity name change = .ok { s with entities := Table.amend s.entities name change } := by
  obtain ⟨e, found⟩ := there
  rw [State.modifyEntity, State.entity, found, Table.amend, found]
  rfl

/-- A link is placed by what was fixed of its two entities when they were made. -/
theorem placement_bare (l : Link) (e f : Entity) :
    l.placement e.bare f.bare = l.placement e f := by
  have label : ∀ e : Entity, e.bare.label = e.label := fun _ => rfl
  have nameSpace : ∀ e : Entity, e.bare.nameSpace = e.nameSpace := fun _ => rfl
  have keyColumn : ∀ e : Entity, e.bare.keyColumn = e.keyColumn := fun _ => rfl
  have chosen : ∀ p : Prop, [Decidable p] →
      (if p then e.bare else f.bare).keyColumn = (if p then e else f).keyColumn := by
    intro p _
    split <;> rfl
  unfold Link.placement
  cases l.cardinality <;> simp only [Link.keyOn, label, nameSpace, keyColumn, chosen]

theorem follows_place (h : Fits files source s) (l : Link) :
    Follows files (l.effect source) s (l.place s) := by
  have first := h.entity l.source
  have second := h.entity l.target
  rw [Link.effect, Link.place, ← first, ← second]
  cases isSource : s.entity l.source with
  | error fault => rfl
  | ok e =>
    cases isTarget : s.entity l.target with
    | error fault => rfl
    | ok f =>
      have same := placement_bare l e f
      simp only [Except.map, ok_bind, same]
      cases placed : l.placement e f with
      | error fault => rfl
      | ok p =>
        refine ⟨s.resolver, h.consistent, ?_⟩
        have there : s.entities.get? l.source = some e := by
          rw [State.entity] at isSource
          split at isSource
          · cases isSource
            exact ‹_›
          · cases isSource
        rw [ok_bind, deferKey_foldl]
        by_cases adds : l.addsRelationship = true
        · simp only [adds, ↓reduceIte]
          refine (modifyEntity_eq ?_ _).trans rfl
          exact ⟨e, there⟩
        · simp only [adds, Bool.false_eq_true, ↓reduceIte, Effect.apply, Table.amend_id]
          rfl

theorem follows_mention (h : Fits files source s) (m : Mention) :
    Follows files (m.effect source) s (Mention.place source s m) := by
  rw [Mention.effect, Mention.place]
  cases m.link source with
  | error fault => rfl
  | ok l => exact follows_place h l

theorem follows_alternative (h : Fits files source s) {a : Alternative}
    (defined : a.source ∈ source.definitions.keys) :
    Follows files (a.effect source) s (a.expand source s) := by
  have there := h.exists_entity defined
  rw [Alternative.effect, Alternative.expand]
  cases a.schema.primitive with
  | some primitive =>
    refine ⟨s.resolver, h.consistent, ?_⟩
    exact modifyEntity_eq there _
  | none =>
    cases a.mention? with
    | some m => exact follows_mention h m
    | none => rfl

theorem follows_member (h : Fits files source s) {m : Member}
    (defined : m.name ∈ source.definitions.keys) :
    Follows files (m.effect files source) s (includeMember source m.name m.schema s m.member) := by
  have there := h.exists_entity defined
  rw [Member.effect, includeMember, memberSchema]
  cases m.member.ref with
  | none => exact ⟨s.resolver, h.consistent, modifyEntity_eq there _⟩
  | some ref =>
    obtain ⟨r, run, consistent⟩ := @Resolver.yields_resolveText _ source.scope _ h.consistent ref
    simp only [State.resolveSchema, run]
    cases outcomeOf files source.scope ref with
    | error fault => rfl
    | ok t =>
      simp only [ok_bind]
      cases (Schema.ofJson t.node).mapError (Fault.malformed (.definition t.name)) with
      | error fault => rfl
      | ok target => exact ⟨r, consistent, modifyEntity_eq (s := s.withResolver r) there _⟩

/-! Runs. -/

/-- All effects, in order. -/
def applyAll (s : State) (xs : List Effect) : State := xs.foldl Effect.apply s

theorem applyAll_withResolver (s : State) (xs : List Effect) (r : Resolver) :
    applyAll (s.withResolver r) xs = (applyAll s xs).withResolver r := by
  induction xs generalizing s with
  | nil => rfl
  | cons x rest ih => exact ih (x.apply s)

theorem applyAll_append (s : State) (xs ys : List Effect) :
    applyAll s (xs ++ ys) = applyAll (applyAll s xs) ys := List.foldl_append

/-- A run does what the effects say, in order, and the entities stay those of the definitions. -/
def FollowsAll (files : FileTree) (source : Source) (effects : Except Fault (List Effect))
    (s : State) (run : Except Fault State) : Prop :=
  match effects with
  | .ok xs => ∃ r, run = .ok ((applyAll s xs).withResolver r) ∧
      Fits files source ((applyAll s xs).withResolver r)
  | .error fault => run = .error fault

/-- If every step of a round follows its effect, the round follows them all. -/
theorem followsAll_foldlM {α : Type} {step : State → α → Except Fault State}
    {effect : α → Except Fault Effect} (mild : ∀ a x, effect a = .ok x → x.Mild) {as : List α}
    (follows : ∀ a ∈ as, ∀ s, Fits files source s → Follows files (effect a) s (step s a))
    (h : Fits files source s) :
    FollowsAll files source (as.mapM effect) s (as.foldlM step s) := by
  induction as generalizing s with
  | nil => exact ⟨s.resolver, rfl, h⟩
  | cons a rest ih =>
    have first := follows a (by simp) s h
    rw [List.mapM_cons, List.foldlM_cons]
    cases does : effect a with
    | error fault =>
      rw [does] at first
      rw [show step s a = .error fault from first]
      rfl
    | ok x =>
      rw [does] at first
      obtain ⟨r, consistent, run⟩ := first
      have later := ih (fun b member => follows b (by simp [member]))
        (h.apply (mild a x does) consistent)
      rw [run, ok_bind, ok_bind]
      cases others : rest.mapM effect with
      | error fault =>
        rw [others] at later
        exact later
      | ok xs =>
        rw [others] at later
        obtain ⟨r', run', fits⟩ := later
        rw [applyAll_withResolver] at run' fits
        exact ⟨r', run', fits⟩

/-- One round after the other. -/
theorem FollowsAll.bind {first later : Except Fault (List Effect)} {run : Except Fault State}
    {next : State → Except Fault State} (h : FollowsAll files source first s run)
    (follows : ∀ s, Fits files source s → FollowsAll files source later s (next s)) :
    FollowsAll files source (do return (← first) ++ (← later)) s (run >>= next) := by
  cases first with
  | error fault =>
    rw [show run = .error fault from h]
    rfl
  | ok xs =>
    obtain ⟨r, run', fits⟩ := h
    have after := follows _ fits
    rw [run', ok_bind, ok_bind]
    cases later with
    | error fault => exact after
    | ok ys =>
      obtain ⟨r', run', fits'⟩ := after
      rw [applyAll_withResolver, ← applyAll_append] at run' fits'
      exact ⟨r', run', fits'⟩

/-! The first round makes the entities. -/

/-- Refuses a definition with a shape that cannot be compiled. -/
def checkDefinition (definition : String × Schema) : Except Fault Unit := do
  refuse definition.1 (definitionProblem? definition.2)
  checkProperties definition.1 definition.2.properties

def checkDefinitions : List (String × Schema) → Except Fault Unit
  | [] => .ok ()
  | definition :: rest => do
    checkDefinition definition
    checkDefinitions rest

/-- The entity of a definition with the columns of its own primitive properties. -/
def madeEntity (options : Options) (definition : String × Schema) : Entity :=
  addScalarColumns (Entity.ofDefinition definition.1 definition.2 options) [definition.2]
    definition.2.properties

theorem createEntity_eq (definition : String × Schema) : createEntity source s definition = do
    checkDefinition definition
    return s.putEntity definition.1 (madeEntity source.options definition) := by
  rw [createEntity, checkDefinition]
  cases refuse definition.1 (definitionProblem? definition.2) with
  | error fault => rfl
  | ok _ => rfl

/-- The state with the entities of all definitions. -/
def created (source : Source) (r : Resolver) : State where
  entities := source.definitions.map fun definition =>
    (definition.1, madeEntity source.options definition)
  resolver := r

theorem createEntities_foldlM (definitions : List (String × Schema)) :
    definitions.foldlM (createEntity source) s = do
      checkDefinitions definitions
      return { s with entities := Table.insertAll s.entities (definitions.map fun definition =>
        (definition.1, madeEntity source.options definition)) } := by
  induction definitions generalizing s with
  | nil => rfl
  | cons definition rest ih =>
    rw [List.foldlM_cons, createEntity_eq, checkDefinitions]
    cases checkDefinition definition with
    | error fault => rfl
    | ok _ =>
      rw [ok_bind, ok_bind]
      exact ih

theorem createEntities_eq (unique : source.definitions.keys.Nodup) (r : Resolver) :
    createEntities source { resolver := r } = do
      checkDefinitions source.definitions
      return created source r := by
  have keys : Table.keys (source.definitions.map fun definition =>
      (definition.1, madeEntity source.options definition)) = source.definitions.keys := by
    simp [Table.keys]
  rw [createEntities, createEntities_foldlM, Table.insertAll_of_disjoint (keys ▸ unique) (by simp)]
  rfl

theorem fits_created {r : Resolver} (consistent : Consistent files r) :
    Fits files source (created source r) where
  consistent
  entities := by
    intro name
    have law := Table.get?_map (fun name schema => madeEntity source.options (name, schema))
      source.definitions name
    have made : (created source r).entities.get? name =
        (source.definitions.get? name).map fun schema =>
          madeEntity source.options (name, schema) := law
    rw [made, Option.map_map]
    congr 1
    funext schema
    exact bare_addScalarColumns _ _ _

/-! The other rounds. -/

theorem includeMembers_eq : includeMembers source s = (members source.definitions).foldlM
    (fun s m => includeMember source m.name m.schema s m.member) s := by
  rw [includeMembers, members, foldlM_flatMap]
  simp only [List.foldlM_map]

theorem effects_eq_ok {xs : List Effect} (h : effects files source = .ok xs) :
    ∃ included expanded placed,
      (members source.definitions).mapM (Member.effect files source) = .ok included ∧
      (alternatives source.definitions).mapM (Alternative.effect source) = .ok expanded ∧
      (mentions source.definitions).mapM (Mention.effect source) = .ok placed ∧
      xs = included ++ expanded ++ placed := by
  obtain ⟨included, first, h⟩ := bind_eq_ok.mp h
  obtain ⟨expanded, second, h⟩ := bind_eq_ok.mp h
  obtain ⟨placed, third, h⟩ := bind_eq_ok.mp h
  cases h
  exact ⟨included, expanded, placed, first, second, third, rfl⟩

/-- What holds of the effects of all members, alternatives and mentions holds of every effect. -/
theorem forall_effects {motive : Effect → Prop} {xs : List Effect}
    (h : effects files source = .ok xs)
    (member : ∀ m ∈ members source.definitions, ∀ x,
      Member.effect files source m = .ok x → motive x)
    (alternative : ∀ a ∈ alternatives source.definitions, ∀ x,
      Alternative.effect source a = .ok x → motive x)
    (mention : ∀ m ∈ mentions source.definitions, ∀ x,
      Mention.effect source m = .ok x → motive x) : ∀ x ∈ xs, motive x := by
  obtain ⟨included, expanded, placed, first, second, third, rfl⟩ := effects_eq_ok h
  intro x inAll
  rcases List.mem_append.mp inAll with inEarlier | isPlaced
  · rcases List.mem_append.mp inEarlier with isIncluded | isExpanded
    · obtain ⟨m, isMember, does⟩ := (mem_of_mapM first x).mp isIncluded
      exact member m isMember x does
    · obtain ⟨a, isAlternative, does⟩ := (mem_of_mapM second x).mp isExpanded
      exact alternative a isAlternative x does
  · obtain ⟨m, isMention, does⟩ := (mem_of_mapM third x).mp isPlaced
    exact mention m isMention x does

theorem mem_members {definitions : Table Schema} {m : Member} (h : m ∈ members definitions) :
    m.name ∈ definitions.keys := by
  obtain ⟨⟨name, schema⟩, member, found⟩ := List.mem_flatMap.mp h
  obtain ⟨_, _, rfl⟩ := List.mem_map.mp found
  exact List.mem_map.mpr ⟨_, member, rfl⟩

theorem source_of_ofDefinition {definition : String × Schema} {a : Alternative}
    (h : a ∈ Alternative.ofDefinition definition.1 definition.2) : a.source = definition.1 := by
  rcases List.mem_append.mp h with own | nested
  · obtain ⟨_, _, rfl⟩ := List.mem_map.mp own
    rfl
  · obtain ⟨_, _, inner⟩ := List.mem_flatMap.mp nested
    obtain ⟨_, _, rfl⟩ := List.mem_map.mp inner
    rfl

theorem source_of_mem_alternatives {definitions : Table Schema} {a : Alternative}
    (h : a ∈ alternatives definitions) : a.source ∈ definitions.keys := by
  obtain ⟨definition, member, found⟩ := List.mem_flatMap.mp h
  exact List.mem_map.mpr ⟨definition, member, (source_of_ofDefinition found).symm⟩

/-- The three rounds that change entities. -/
def rounds (source : Source) (s : State) : Except Fault State := do
  let s ← includeMembers source s
  let s ← expandAlternatives source s
  placeMentions source s

theorem followsAll_rounds (h : Fits files source s) :
    FollowsAll files source (effects files source) s (rounds source s) := by
  have split : effects files source = do
      return (← (do return (← (members source.definitions).mapM (Member.effect files source)) ++
        (← (alternatives source.definitions).mapM (Alternative.effect source)))) ++
        (← (mentions source.definitions).mapM (Mention.effect source)) := by
    simp only [effects, bind_assoc, pure_bind]
  have joined : rounds source s =
      (includeMembers source s >>= expandAlternatives source) >>= placeMentions source := by
    rw [rounds, bind_assoc]
  rw [split, joined]
  refine FollowsAll.bind (FollowsAll.bind ?_ ?_) ?_
  · rw [includeMembers_eq]
    apply followsAll_foldlM (fun _ _ => Member.effect_mild) _ h
    exact fun m member s fits => follows_member fits (mem_members member)
  · intro s fits
    apply followsAll_foldlM (fun _ _ => Alternative.effect_mild) _ fits
    exact fun a member s fits => follows_alternative fits (source_of_mem_alternatives member)
  · intro s fits
    apply followsAll_foldlM (fun _ _ => Mention.effect_mild) _ fits
    exact fun m _ s fits => follows_mention fits m

/-- A build refuses definitions that cannot be compiled, makes their entities, applies all effects
in order and puts the keys in place. -/
theorem tables_eq (unique : source.definitions.keys.Nodup) :
    match (do checkDefinitions source.definitions; effects files source) with
    | .ok xs => ∃ r, tables source { resolver := Resolver.fresh files } =
        bindKeys ((applyAll (created source (Resolver.fresh files)) xs).withResolver r)
    | .error fault => tables source { resolver := Resolver.fresh files } = .error fault := by
  have start := @fits_created _ source _ (Resolver.consistent_fresh files)
  have law := followsAll_rounds start
  have joined : tables source { resolver := Resolver.fresh files } =
      createEntities source { resolver := Resolver.fresh files } >>= fun s =>
        rounds source s >>= bindKeys := by
    simp only [tables, rounds, bind_assoc]
  rw [joined, createEntities_eq unique]
  cases checkDefinitions source.definitions with
  | error fault => rfl
  | ok _ =>
    simp only [ok_bind, pure_bind]
    cases all : effects files source with
    | error fault =>
      rw [all] at law
      rw [show rounds source _ = .error fault from law]
      rfl
    | ok xs =>
      rw [all] at law
      obtain ⟨r, run, _⟩ := law
      rw [run]
      exact ⟨r, rfl⟩

end Build

end ApiGraph
