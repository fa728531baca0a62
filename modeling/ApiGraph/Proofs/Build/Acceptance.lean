import ApiGraph.Proofs.Build.Order

/-! Which descriptions compile. For a supported description without paths and servers it is the
definitions alone that decide: `Acceptable` says what they must be like, and `Refused` names every
fault that a build can end with, each with what is wrong. A build succeeds exactly if the
definitions are acceptable, and fails with nothing but these faults (`graph_accepts`): what keys and
links name is there whenever it is looked up. -/

namespace ApiGraph.Build

open Resolver (outcomeOf)

variable {files : FileTree} {source : Source}

/-! Shapes. -/

/-- A definition that can be compiled: an array of a reference, or something with a body. -/
structure DefinitionShape (schema : Schema) : Prop where
  proper : schema.ref = none
  notPrimitive : schema.primitive = none
  array : schema.type = some "array" → ∃ ref, schema.itemsRef = some ref
  filled : schema.type ≠ some "array" →
    schema.properties ≠ [] ∨ schema.allOf ≠ [] ∨ schema.oneOf ≠ []

/-- A property that can be compiled. -/
inductive PropertyShape (p : Schema) : Prop
  | primitive {primitive : Primitive} (isPrimitive : p.primitive = some primitive)
  | reference {ref : String} (isReference : p.ref = some ref)
  | choice (hasAlternatives : p.oneOf ≠ [])
  | array {ref : String} (isArray : p.type = some "array") (items : p.itemsRef = some ref)

theorem definitionProblem?_eq_none_iff {schema : Schema} :
    definitionProblem? schema = none ↔ DefinitionShape schema := by
  have isArray : schema.isArray = true ↔ schema.type = some "array" := by
    simp [Schema.isArray]
  rw [definitionProblem?, Schema.isAlias]
  cases isAlias : schema.ref with
  | some ref =>
    simp only [Option.isSome_some, ↓reduceIte, reduceCtorEq, false_iff]
    rintro ⟨proper, _, _, _⟩
    rw [isAlias] at proper
    cases proper
  | none =>
    simp only [Option.isSome_none, Bool.false_eq_true, ↓reduceIte]
    cases isPrimitive : schema.primitive with
    | some primitive =>
      simp only [reduceCtorEq, false_iff]
      rintro ⟨_, notPrimitive, _, _⟩
      rw [isPrimitive] at notPrimitive
      cases notPrimitive
    | none =>
      by_cases array : schema.isArray = true
      · have type := isArray.mp array
        simp only [array, ↓reduceIte]
        cases items : schema.itemsRef with
        | none =>
          simp only [Option.isNone_none, ↓reduceIte, reduceCtorEq, false_iff]
          rintro ⟨_, _, refers, _⟩
          obtain ⟨ref, found⟩ := refers type
          rw [items] at found
          cases found
        | some ref =>
          simp only [Option.isNone_some, Bool.false_eq_true, ↓reduceIte, true_iff]
          exact ⟨isAlias, isPrimitive, fun _ => ⟨ref, items⟩, fun other => absurd type other⟩
      · have type := mt isArray.mpr array
        simp only [array, Bool.false_eq_true, ↓reduceIte]
        have body : schema.hasBody = true ↔
            schema.properties ≠ [] ∨ schema.allOf ≠ [] ∨ schema.oneOf ≠ [] := by
          simp [Schema.hasBody, or_assoc]
        by_cases filled : schema.hasBody = true
        · simp only [filled, ↓reduceIte, true_iff]
          exact ⟨isAlias, isPrimitive, fun other => absurd other type, fun _ => body.mp filled⟩
        · simp only [filled, Bool.false_eq_true, ↓reduceIte, reduceCtorEq, false_iff]
          exact fun shape => filled (body.mpr (shape.filled type))

theorem itemsProblem?_eq_none_iff {items : Option Schema} :
    itemsProblem? items = none ↔ ∃ ref, items.bind (·.ref) = some ref := by
  refine ⟨itemsRef_of_itemsProblem?, ?_⟩
  rintro ⟨ref, found⟩
  obtain ⟨schema, rfl, isAlias⟩ := Option.bind_eq_some_iff.mp found
  simp [itemsProblem?, Schema.isAlias, isAlias]

theorem propertyProblem?_eq_none_iff {p : Schema} :
    propertyProblem? p = none ↔ PropertyShape p := by
  constructor
  · intro sound
    rw [propertyProblem?] at sound
    split at sound
    · rename_i shape
      rcases Bool.or_eq_true_iff.mp shape with early | choice
      · rcases Bool.or_eq_true_iff.mp early with isPrimitive | isAlias
        · obtain ⟨primitive, found⟩ := Option.isSome_iff_exists.mp isPrimitive
          exact .primitive found
        · obtain ⟨ref, found⟩ := Option.isSome_iff_exists.mp isAlias
          exact .reference found
      · exact .choice (by simpa using choice)
    · split at sound
      · rename_i isArray
        obtain ⟨ref, items⟩ := itemsProblem?_eq_none_iff.mp sound
        exact .array (by simpa [Schema.isArray] using isArray) items
      · split at sound
        · cases sound
        · split at sound <;> cases sound
  · intro shape
    cases shape with
    | primitive isPrimitive => simp [propertyProblem?, isPrimitive]
    | reference isReference => simp [propertyProblem?, Schema.isAlias, isReference]
    | choice hasAlternatives => simp [propertyProblem?, hasAlternatives]
    | array isArray items =>
      have array : p.isArray = true := by simp [Schema.isArray, isArray]
      have sound : itemsProblem? p.items = none := itemsProblem?_eq_none_iff.mpr ⟨_, items⟩
      simp [propertyProblem?, array, sound]

/-! Acceptance. -/

/-- Where a reference leads that is read from the description. -/
def resolved (files : FileTree) (source : Source) (ref : String) : Except Fault Resolved :=
  ((Resolver.resolveText source.scope ref).run.run (Resolver.fresh files)).1

/-- The namespace of the entity of a definition. -/
def nameSpaceOf (source : Source) (schema : Schema) : String :=
  schema.xNamespace.getD source.options.defaultNamespace

/-- Definitions that can be compiled. -/
structure Acceptable (files : FileTree) (source : Source) : Prop where
  shapes : ∀ name schema, (name, schema) ∈ source.definitions → DefinitionShape schema
  properties : ∀ name schema, (name, schema) ∈ source.definitions →
    ∀ property p, (property, p) ∈ schema.properties → PropertyShape p
  /-- What a member of an `allOf` refers to is there and is a schema. -/
  members : ∀ name schema, (name, schema) ∈ source.definitions →
    ∀ member ∈ schema.allOf, ∀ ref, member.ref = some ref →
      ∃ t target, resolved files source ref = .ok t ∧ Schema.ofJson t.node = .ok target
  /-- An alternative that is not primitive is a reference or an array of references. -/
  alternatives : ∀ name within choice,
    Holds source.definitions name (.alternative within) choice →
      ∃ ref forward, choice.refTarget = some (ref, forward)
  references : ∀ name site schema, Holds source.definitions name site schema →
    ∀ ref forward, schema.refTarget = some (ref, forward) →
      ∃ target ∈ source.definitions.keys, definitionName? ref = some target
  /-- Many-to-many links stay within a namespace. -/
  joins : ∀ (l : Link) (schema own : Schema), l.IsOf source.definitions schema →
    l.forward = .many → l.HoldsBack (some .many) → source.definitions.get? l.source = some own →
      nameSpaceOf source own = nameSpaceOf source l.targetSchema
  namespaces : ∀ name schema, (name, schema) ∈ source.definitions →
    Text.allBlank (nameSpaceOf source schema) = false

/-- The faults that a build can end with, each with what is wrong with the definitions. -/
inductive Refused (files : FileTree) (source : Source) : Fault → Prop
  | definition {name : String} {schema : Schema} {problem : ShapeProblem}
    (defined : (name, schema) ∈ source.definitions)
    (shape : definitionProblem? schema = some problem) :
    Refused files source (.unsupportedShape name problem)
  | property {name property : String} {schema p : Schema} {problem : ShapeProblem}
    (defined : (name, schema) ∈ source.definitions) (isProperty : (property, p) ∈ schema.properties)
    (shape : propertyProblem? p = some problem) :
    Refused files source (.unsupportedShape (name ++ "." ++ property) problem)
  | lost {name ref : String} {schema member : Schema} {fault : Fault}
    (defined : (name, schema) ∈ source.definitions) (isMember : member ∈ schema.allOf)
    (refers : member.ref = some ref) (leads : resolved files source ref = .error fault) :
    Refused files source fault
  | malformed {name ref : String} {schema member : Schema} {t : Resolved} {mismatch : Mismatch}
    (defined : (name, schema) ∈ source.definitions) (isMember : member ∈ schema.allOf)
    (refers : member.ref = some ref) (leads : resolved files source ref = .ok t)
    (read : Schema.ofJson t.node = .error mismatch) :
    Refused files source (.malformed (.definition t.name) mismatch)
  | alternative {name : String} {within : Option String} {choice : Schema}
    (held : Holds source.definitions name (.alternative within) choice)
    (shape : choice.refTarget = none) :
    Refused files source
      (.unsupportedShape ((Site.alternative within).owner name) .alternative)
  | unknown {name ref : String} {site : Site} {schema : Schema} {forward : Multiplicity}
    (held : Holds source.definitions name site schema)
    (refers : schema.refTarget = some (ref, forward))
    (absent : ∀ target ∈ source.definitions.keys, definitionName? ref ≠ some target) :
    Refused files source (.unknownDefinition (site.owner name) ref)
  | across {l : Link} {schema own : Schema} (isOf : l.IsOf source.definitions schema)
    (many : l.forward = .many) (back : l.HoldsBack (some .many))
    (isOwn : source.definitions.get? l.source = some own)
    (apart : nameSpaceOf source own ≠ nameSpaceOf source l.targetSchema) :
    Refused files source (.manyToManyAcross l.source (nameSpaceOf source own) l.target
      (nameSpaceOf source l.targetSchema))
  | blank {name : String} {schema : Schema} (defined : (name, schema) ∈ source.definitions)
    (blank : Text.allBlank (nameSpaceOf source schema) = true) :
    Refused files source (.missingNamespace name)

/-- Nothing is wrong with acceptable definitions. -/
theorem Acceptable.not_refused (h : Acceptable files source) {fault : Fault} :
    ¬ Refused files source fault := by
  intro refused
  cases refused with
  | definition defined shape =>
    rw [definitionProblem?_eq_none_iff.mpr (h.shapes _ _ defined)] at shape
    cases shape
  | property defined isProperty shape =>
    rw [propertyProblem?_eq_none_iff.mpr (h.properties _ _ defined _ _ isProperty)] at shape
    cases shape
  | lost defined isMember refers leads =>
    obtain ⟨t, _, found, _⟩ := h.members _ _ defined _ isMember _ refers
    rw [leads] at found
    cases found
  | malformed defined isMember refers leads read =>
    obtain ⟨t, target, found, isSchema⟩ := h.members _ _ defined _ isMember _ refers
    obtain rfl := Except.ok.inj (leads.symm.trans found)
    rw [read] at isSchema
    cases isSchema
  | alternative held shape =>
    obtain ⟨ref, forward, refers⟩ := h.alternatives _ _ _ held
    rw [shape] at refers
    cases refers
  | unknown held refers absent =>
    obtain ⟨target, defined, named⟩ := h.references _ _ _ held _ _ refers
    exact absent target defined named
  | across isOf many back isOwn apart => exact apart (h.joins _ _ _ isOf many back isOwn)
  | blank defined blank =>
    rw [h.namespaces _ _ defined] at blank
    cases blank

/-! Faults. -/

theorem resolved_eq (ref : String) : resolved files source ref = outcomeOf files source.scope ref :=
  Resolver.resolveText_fresh

theorem refused_of_refuse {owner : String} {problem? : Option ShapeProblem} {fault : Fault}
    (h : refuse owner problem? = .error fault) :
    ∃ problem, problem? = some problem ∧ fault = .unsupportedShape owner problem := by
  cases problem? with
  | none => cases h
  | some problem =>
    cases h
    exact ⟨problem, rfl, rfl⟩

theorem refused_of_checkProperties {owner : String} {properties : List (String × Schema)}
    {fault : Fault} (h : checkProperties owner properties = .error fault) :
    ∃ property p problem, (property, p) ∈ properties ∧ propertyProblem? p = some problem ∧
      fault = .unsupportedShape (owner ++ "." ++ property) problem := by
  induction properties with
  | nil => cases h
  | cons entry rest ih =>
    obtain ⟨property, p⟩ := entry
    rcases bind_eq_error.mp h with first | ⟨_, _, later⟩
    · obtain ⟨problem, found, isFault⟩ := refused_of_refuse first
      exact ⟨property, p, problem, by simp, found, isFault⟩
    · obtain ⟨property', p', problem, member, found, isFault⟩ := ih later
      exact ⟨property', p', problem, by simp [member], found, isFault⟩

theorem refused_of_checkDefinitions {definitions : List (String × Schema)} {fault : Fault}
    (within : ∀ definition ∈ definitions, definition ∈ source.definitions)
    (h : checkDefinitions definitions = .error fault) : Refused files source fault := by
  induction definitions with
  | nil => cases h
  | cons definition rest ih =>
    obtain ⟨name, schema⟩ := definition
    have defined := within (name, schema) (by simp)
    rcases bind_eq_error.mp h with first | ⟨_, _, later⟩
    · rcases bind_eq_error.mp first with shape | ⟨_, _, properties⟩
      · obtain ⟨problem, found, rfl⟩ := refused_of_refuse shape
        exact .definition defined found
      · obtain ⟨property, p, problem, isProperty, found, rfl⟩ :=
          refused_of_checkProperties properties
        exact .property defined isProperty found
    · exact ih (fun definition member => within definition (by simp [member])) later

theorem refused_of_member {m : Member} {fault : Fault}
    (isMember : m ∈ members source.definitions) (h : m.effect files source = .error fault) :
    Refused files source fault := by
  obtain ⟨⟨name, schema⟩, defined, found⟩ := List.mem_flatMap.mp isMember
  obtain ⟨member, inAllOf, rfl⟩ := List.mem_map.mp found
  rcases bind_eq_error.mp h with failed | ⟨_, _, failed⟩
  · rw [memberSchema] at failed
    cases refers : member.ref with
    | none =>
      simp only [refers] at failed
      cases failed
    | some ref =>
      simp only [refers] at failed
      rcases bind_eq_error.mp failed with lost | ⟨t, leads, unread⟩
      · rw [← resolved_eq] at lost
        exact .lost defined inAllOf refers lost
      · rw [← resolved_eq] at leads
        cases read : Schema.ofJson t.node with
        | ok target =>
          rw [read] at unread
          cases unread
        | error mismatch =>
          rw [read] at unread
          cases unread
          exact .malformed defined inAllOf refers leads read
  · cases failed

theorem entityOf_of_get? {name : String} {schema : Schema}
    (defined : source.definitions.get? name = some schema) :
    entityOf source name = .ok (Entity.ofDefinition name schema source.options) := by
  rw [entityOf, defined]

theorem refused_of_link {l : Link} {schema : Schema} {fault : Fault}
    (isOf : l.IsOf source.definitions schema) (h : l.effect source = .error fault) :
    Refused files source fault := by
  obtain ⟨own, isOwn⟩ := Table.mem_keys_iff.mp isOf.held.mem_keys
  rw [Link.effect, entityOf_of_get? isOwn, ok_bind, entityOf_of_get? isOf.defined, ok_bind] at h
  rcases bind_eq_error.mp h with failed | ⟨_, _, failed⟩
  · rw [Link.placement] at failed
    cases cardinality : l.cardinality with
    | manyToMany =>
      simp only [cardinality] at failed
      split at failed
      · cases failed
      · rename_i apart
        cases failed
        obtain ⟨many, back⟩ := cardinality_eq_manyToMany_iff.mp cardinality
        exact .across isOf many back isOwn apart
    | _ =>
      simp only [cardinality] at failed
      cases failed
  · cases failed

theorem refused_of_mention {m : Mention} {schema : Schema} {fault : Fault}
    (held : Holds source.definitions m.source m.site schema)
    (refers : schema.refTarget = some (m.ref, m.forward)) (h : m.effect source = .error fault) :
    Refused files source fault := by
  rcases bind_eq_error.mp h with failed | ⟨l, link, failed⟩
  · rcases bind_eq_error.mp failed with unknown | ⟨_, _, failed⟩
    · rw [Source.definition] at unknown
      split at unknown
      · cases unknown
      · rename_i absent
        cases unknown
        refine .unknown held refers ?_
        intro target defined named
        obtain ⟨found, isDefined⟩ := Table.mem_keys_iff.mp defined
        rw [named, Option.bind_some, isDefined] at absent
        cases absent
    · cases failed
  · obtain ⟨isSource, isSite, isForward, named, known⟩ := Mention.link_eq_ok.mp link
    refine @refused_of_link _ _ l schema _ ⟨?_, ⟨m.ref, ?_, named⟩, known⟩ failed
    · rw [isSource, isSite]
      exact held
    · rw [isForward]
      exact refers

theorem refused_of_alternative {a : Alternative} {fault : Fault}
    (isAlternative : a ∈ alternatives source.definitions)
    (h : a.effect source = .error fault) : Refused files source fault := by
  rw [Alternative.effect] at h
  split at h
  · cases h
  · rename_i notPrimitive
    have held := holds_of_alternative isAlternative notPrimitive
    split at h
    · rename_i m mention
      obtain ⟨⟨ref, forward⟩, refers, rfl⟩ := Option.map_eq_some_iff.mp mention
      exact refused_of_mention held refers h
    · rename_i none
      cases h
      exact .alternative held (Option.map_eq_none_iff.mp none)

/-- A step that has no effect is refused for what is wrong with the definitions. -/
theorem refused_of_effects {fault : Fault} (checked : checkDefinitions source.definitions = .ok ())
    (h : effects files source = .error fault) : Refused files source fault := by
  rcases bind_eq_error.mp h with included | ⟨_, _, h⟩
  · obtain ⟨m, isMember, failed⟩ := mapM_eq_error included
    exact refused_of_member isMember failed
  · rcases bind_eq_error.mp h with expanded | ⟨_, _, h⟩
    · obtain ⟨a, isAlternative, failed⟩ := mapM_eq_error expanded
      exact refused_of_alternative isAlternative failed
    · rcases bind_eq_error.mp h with placed | ⟨_, _, h⟩
      · obtain ⟨m, isMention, failed⟩ := mapM_eq_error placed
        obtain ⟨schema, held, refers⟩ := (isPlaced_iff checked).mp (Or.inr isMention)
        exact refused_of_mention held refers failed
      · cases h

/-! Namespaces. -/

theorem nameSpace_of_entityOf {name : String} {e : Entity} (h : entityOf source name = .ok e) :
    ∃ schema, (name, schema) ∈ source.definitions ∧ e.nameSpace = nameSpaceOf source schema := by
  rw [entityOf] at h
  split at h
  · rename_i schema defined
    cases h
    exact ⟨schema, Table.mem_of_get?_eq_some defined, rfl⟩
  · cases h

section

variable {xs : List Effect} (unique : source.definitions.keys.Nodup)
  (does : effects files source = .ok xs)
include unique does

/-- An entity has the namespace of its definition. -/
theorem nameSpace_of_entity {name : String} {e : Entity}
    (there : (name, e) ∈
      ((unbound files source xs).bound (unbound files source xs).pending).entities) :
    ∃ schema, (name, schema) ∈ source.definitions ∧ e.nameSpace = nameSpaceOf source schema := by
  have keys : ((unbound files source xs).bound
      (unbound files source xs).pending).entities.keys.Nodup := by
    rw [keys_entities_bound]
    exact unique
  have same := bare_entities does name
  rw [(Table.get?_eq_some_iff keys).mpr there, Option.map_some] at same
  obtain ⟨schema, defined, made⟩ := Option.map_eq_some_iff.mp same.symm
  refine ⟨schema, Table.mem_of_get?_eq_some defined, ?_⟩
  exact (congrArg Entity.nameSpace made).symm

/-- Every definition has an entity, with its namespace. -/
theorem exists_entity {name : String} {schema : Schema}
    (defined : (name, schema) ∈ source.definitions) : ∃ e,
      (name, e) ∈ ((unbound files source xs).bound (unbound files source xs).pending).entities ∧
      e.nameSpace = nameSpaceOf source schema := by
  have entity : name ∈ ((unbound files source xs).bound
      (unbound files source xs).pending).entities.keys := by
    rw [keys_entities_bound]
    exact List.mem_map.mpr ⟨_, defined, rfl⟩
  obtain ⟨e, found⟩ := Table.mem_keys_iff.mp entity
  have there := Table.mem_of_get?_eq_some found
  obtain ⟨schema', defined', nameSpace⟩ := nameSpace_of_entity unique does there
  rw [← Table.get?_eq_some_iff unique] at defined defined'
  obtain rfl := Option.some.inj (defined'.symm.trans defined)
  exact ⟨e, there, nameSpace⟩

omit unique in
/-- A join table has the namespace of a definition. -/
theorem nameSpace_of_joinTable (checked : checkDefinitions source.definitions = .ok ())
    {name : String} {t : JoinTable} (there : (name, t) ∈
      ((unbound files source xs).bound (unbound files source xs).pending).joinTables) :
    ∃ owner schema, (owner, schema) ∈ source.definitions ∧
      t.nameSpace = nameSpaceOf source schema := by
  obtain ⟨⟨key, made⟩, inUnbound, isBound⟩ := List.mem_map.mp there
  obtain ⟨rfl, rfl⟩ := Prod.mk.inj isBound
  rw [← Table.get?_eq_some_iff keys_joinTables_unbound_nodup] at inUnbound
  obtain ⟨x, isEffect, joins, _⟩ := exists_effect_of_joinTable inUnbound
  obtain ⟨l, _, e, _, _, _, isSource, _, _, isTable⟩ :=
    exists_joining_link checked does isEffect joins
  obtain ⟨schema, defined, nameSpace⟩ := nameSpace_of_entityOf isSource
  refine ⟨l.source, schema, defined, ?_⟩
  rw [bindJoinTable, isTable]
  exact nameSpace

end

theorem mem_or_subset {α : Type} {first second before after : List α} {a : α}
    (split : first ++ second = before ++ a :: after) : a ∈ first ∨ first ⊆ before := by
  rcases List.append_eq_append_iff.mp split with ⟨rest, rfl, _⟩ | ⟨rest, rfl, same⟩
  · exact Or.inr (List.subset_append_left first rest)
  · cases rest with
    | nil => simp
    | cons b rest =>
      obtain ⟨rfl, _⟩ := List.cons.inj same
      simp

/-- Namespaces that cannot be assembled have an entity whose namespace is blank: a join table has
that of its entities, which come first. -/
theorem refused_of_assemble {xs : List Effect} {fault : Fault}
    (unique : source.definitions.keys.Nodup)
    (checked : checkDefinitions source.definitions = .ok ())
    (does : effects files source = .ok xs)
    (h : Namespace.assemble
      ((unbound files source xs).bound (unbound files source xs).pending).entities
      ((unbound files source xs).bound (unbound files source xs).pending).joinTables [] =
        .error fault) : Refused files source fault := by
  rw [Namespace.assemble_eq] at h
  obtain ⟨before, a, after, split, filled, blank, rfl⟩ := Namespace.foldlM_change_error h
  rw [Namespace.additions, List.append_assoc, List.map_nil, List.append_nil] at split
  rcases mem_or_subset split with inEntities | allBefore
  · obtain ⟨⟨name, e⟩, there, rfl⟩ := List.mem_map.mp inEntities
    obtain ⟨schema, defined, nameSpace⟩ := nameSpace_of_entity unique does there
    refine .blank defined ?_
    rw [← nameSpace]
    exact blank
  · exfalso
    have isAddition : a ∈ before ++ a :: after := by simp
    rw [← split] at isAddition
    rcases List.mem_append.mp isAddition with inEntities | inJoinTables
    · rw [filled a (allBefore inEntities)] at blank
      cases blank
    · obtain ⟨⟨name, t⟩, there, rfl⟩ := List.mem_map.mp inJoinTables
      obtain ⟨owner, schema, defined, nameSpace⟩ := nameSpace_of_joinTable does checked there
      obtain ⟨e, there, nameSpace'⟩ := exists_entity unique does defined
      have entityFilled := filled _ (allBefore (List.mem_map_of_mem there))
      rw [Namespace.ofEntity, nameSpace', ← nameSpace] at entityFilled
      rw [Namespace.ofJoinTable, entityFilled] at blank
      cases blank

/-! Builds. -/

/-- A description of a supported version with nothing but definitions. -/
structure DefinitionsOnly (d : Description) : Prop where
  version : ∃ version, d.document.get? "openapi" = some (.string version) ∧
    version.toList.head? = some '3'
  noPaths : d.paths = .ok []
  noServers : d.servers = .ok []

theorem DefinitionsOnly.checkVersion {d : Description} (h : DefinitionsOnly d) :
    checkVersion d = .ok () := by
  obtain ⟨version, found, starts⟩ := h.version
  obtain ⟨rest, isVersion⟩ := List.head?_eq_some_iff.mp starts
  have read : d.version? = some version := by
    rw [Description.version?, found]
    rfl
  simp [Build.checkVersion, read, isVersion, supportedVersion, Text.startsWith, Text.dropLead?]

/-- With nothing but definitions, the tables and the namespaces are all there is to build. -/
theorem graph_eq_assembled {d : Description} {definitions : Table Schema} (h : DefinitionsOnly d)
    (read : d.definitions = .ok definitions) (options : Options) :
    graph files d options = do
      let s ← tables ⟨d, definitions, options⟩ { resolver := Resolver.fresh files }
      let namespaces ← Namespace.assemble s.entities s.joinTables []
      return ⟨s.entities, Graph.relationshipsOf s.entities, s.joinTables, [], namespaces, [], [],
        options⟩ := by
  have collected : ∀ entities, Endpoint.collect d [] entities options = .ok [] := by
    intro entities
    rw [Endpoint.collect, h.noPaths]
    rfl
  have microservices : Endpoint.microservices d [] = .ok [] := by
    rw [Endpoint.microservices, h.noPaths]
    rfl
  rw [graph, h.checkVersion, ok_bind, Source.of, read, ok_bind, pure_bind]
  simp only [h.noServers, collected, microservices, ok_bind]

/-- Definitions that compile are acceptable. -/
theorem acceptable_of_effects {xs : List Effect} (unique : source.definitions.keys.Nodup)
    (checked : checkDefinitions source.definitions = .ok ())
    (does : effects files source = .ok xs)
    (filled : ∀ a ∈ Namespace.additions
      ((unbound files source xs).bound (unbound files source xs).pending).entities
      ((unbound files source xs).bound (unbound files source xs).pending).joinTables [],
      Text.allBlank a.nameSpace = false) : Acceptable files source where
  shapes _ _ defined :=
    definitionProblem?_eq_none_iff.mp (problems_of_checkDefinitions checked defined).1
  properties _ _ defined property p isProperty :=
    propertyProblem?_eq_none_iff.mp
      ((problems_of_checkDefinitions checked defined).2 property p isProperty)
  members := by
    intro name schema defined member inAllOf ref refers
    obtain ⟨included, _, _, first, _⟩ := effects_eq_ok does
    have isMember : ⟨name, schema, member⟩ ∈ members source.definitions :=
      List.mem_flatMap.mpr ⟨_, defined, List.mem_map_of_mem inAllOf⟩
    obtain ⟨x, _, effect⟩ := exists_of_mem_mapM first isMember
    obtain ⟨target, found, _⟩ := bind_eq_ok.mp effect
    simp only [memberSchema, refers] at found
    obtain ⟨t, leads, read⟩ := bind_eq_ok.mp found
    rw [← resolved_eq] at leads
    cases isSchema : Schema.ofJson t.node with
    | ok target => exact ⟨t, target, leads, isSchema⟩
    | error mismatch =>
      rw [isSchema] at read
      cases read
  alternatives := by
    intro name within choice held
    obtain ⟨l, _, _, isOf⟩ := exists_link checked does held
    obtain ⟨ref, refers, _⟩ := isOf.refers
    exact ⟨ref, l.forward, refers⟩
  references := by
    intro name site schema held ref forward refers
    obtain ⟨l, _, _, isOf⟩ := exists_link checked does held
    obtain ⟨ref', refers', named⟩ := isOf.refers
    rw [refers] at refers'
    cases refers'
    exact ⟨l.target, Table.mem_keys_of_get? isOf.defined, named⟩
  joins := by
    intro l schema own isOf many back isOwn
    obtain ⟨x, _, effect⟩ := placed_of_link checked does isOf
    obtain ⟨e, f, p, isSource, isTarget, placed, _⟩ := Link.effect_eq_ok effect
    rw [entityOf_of_get? isOwn] at isSource
    rw [entityOf_of_get? isOf.defined] at isTarget
    cases isSource
    cases isTarget
    exact (joinTable_of_manyToMany placed (cardinality_eq_manyToMany_iff.mpr ⟨many, back⟩)).1
  namespaces := by
    intro name schema defined
    obtain ⟨e, there, nameSpace⟩ := exists_entity unique does defined
    rw [← nameSpace]
    have inAll : Namespace.ofEntity (name, e) ∈ Namespace.additions
        ((unbound files source xs).bound (unbound files source xs).pending).entities
        ((unbound files source xs).bound (unbound files source xs).pending).joinTables [] := by
      rw [Namespace.additions, List.append_assoc]
      exact List.mem_append_left _ (List.mem_map_of_mem there)
    exact filled _ inAll

/-- A description of nothing but definitions compiles exactly if these are acceptable, and ends in
no fault but those that say what is wrong with them. -/
theorem graph_accepts {d : Description} {definitions : Table Schema} {options : Options}
    (only : DefinitionsOnly d) (read : d.definitions = .ok definitions)
    (unique : definitions.keys.Nodup) :
    ((∃ g, graph files d options = .ok g) ↔ Acceptable files ⟨d, definitions, options⟩) ∧
    ∀ fault, graph files d options = .error fault →
      Refused files ⟨d, definitions, options⟩ fault := by
  have law := @tables_eq_bound files ⟨d, definitions, options⟩ unique
  have ends : (∃ g, graph files d options = .ok g) ∧ Acceptable files ⟨d, definitions, options⟩ ∨
      ∃ fault, graph files d options = .error fault ∧
        Refused files ⟨d, definitions, options⟩ fault := by
    rw [graph_eq_assembled only read]
    cases checked : checkDefinitions definitions with
    | error fault =>
      rw [checked] at law
      refine Or.inr ⟨fault, ?_, refused_of_checkDefinitions (fun _ => id) checked⟩
      rw [show tables _ _ = .error fault from law, error_bind]
    | ok _ =>
      cases does : effects files ⟨d, definitions, options⟩ with
      | error fault =>
        rw [checked, ok_bind, does] at law
        refine Or.inr ⟨fault, ?_, refused_of_effects checked does⟩
        rw [show tables _ _ = .error fault from law, error_bind]
      | ok xs =>
        rw [checked, ok_bind, does] at law
        obtain ⟨s, tabled, entities, joinTables⟩ := law
        rw [tabled, ok_bind]
        cases assembled : Namespace.assemble s.entities s.joinTables [] with
        | error fault =>
          refine Or.inr ⟨fault, rfl, ?_⟩
          rw [entities, joinTables] at assembled
          exact refused_of_assemble unique checked does assembled
        | ok namespaces =>
          refine Or.inl ⟨⟨_, rfl⟩, ?_⟩
          rw [entities, joinTables, Namespace.assemble_eq_ok] at assembled
          exact acceptable_of_effects unique checked does assembled.1
  rcases ends with ⟨⟨g, built⟩, acceptable⟩ | ⟨fault, failed, refused⟩
  · refine ⟨⟨fun _ => acceptable, fun _ => ⟨g, built⟩⟩, ?_⟩
    intro fault failed
    rw [built] at failed
    cases failed
  · refine ⟨⟨?_, fun acceptable => absurd refused acceptable.not_refused⟩, ?_⟩
    · rintro ⟨g, built⟩
      rw [failed] at built
      cases built
    · intro other failed'
      rw [failed] at failed'
      cases failed'
      exact refused

theorem blog_definitionsOnly : DefinitionsOnly blog where
  version := ⟨"3.0.0", rfl, by decide⟩
  noPaths := rfl
  noServers := rfl

/-- The blog compiles, so its definitions are acceptable, and no fault is left for it. -/
theorem blog_accepted : ∃ definitions, DefinitionsOnly blog ∧
    blog.definitions = .ok definitions ∧ definitions.keys.Nodup ∧
    Acceptable {} ⟨blog, definitions, {}⟩ ∧ ∀ fault, graph {} blog {} ≠ .error fault := by
  have run : (graph {} blog {}).toOption.map (fun g => g.entities.keys) =
      some ["Post", "Author", "Tag"] := by
    decide +kernel
  have read : blog.definitions.toOption.map Table.keys = some ["Post", "Author", "Tag"] := by
    decide +kernel
  obtain ⟨g, built, _⟩ := exists_ok_of_map run
  obtain ⟨definitions, defined, keys⟩ := exists_ok_of_map read
  have unique : definitions.keys.Nodup := by
    rw [keys]
    decide
  obtain ⟨accepts, refuses⟩ := @graph_accepts {} _ _ {} blog_definitionsOnly defined unique
  have acceptable := accepts.mp ⟨g, built⟩
  exact ⟨definitions, blog_definitionsOnly, defined, unique, acceptable,
    fun fault failed => acceptable.not_refused (refuses fault failed)⟩

end ApiGraph.Build
