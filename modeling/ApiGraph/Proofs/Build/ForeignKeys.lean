import ApiGraph.Proofs.Build.Tables
import Mathlib.Data.List.Nodup

/-! Foreign keys are placed exactly. The keys of a graph are those that the links of its
definitions need, for any references between them: none is lost where several links ask for one
column or a declared column has the name of a key, and none is there without a link
(`mem_foreignKeys_iff`). -/

namespace ApiGraph.Build

variable {files : FileTree} {source : Source} {definitions : Table Schema} {xs : List Effect}

/-! Links and their cardinality. -/

/-- The places in a definition where it may refer to another one, each with the schema there. -/
inductive Holds (definitions : Table Schema) : String → Site → Schema → Prop
  | alternative {name : String} {schema choice : Schema} (defined : (name, schema) ∈ definitions)
    (isChoice : choice ∈ schema.oneOf) (notPrimitive : choice.primitive = none) :
    Holds definitions name (.alternative none) choice
  | propertyAlternative {name property : String} {schema p choice : Schema}
    (defined : (name, schema) ∈ definitions) (isProperty : (property, p) ∈ schema.properties)
    (isChoice : choice ∈ p.oneOf) (notPrimitive : choice.primitive = none) :
    Holds definitions name (.alternative (some property)) choice
  | array {name : String} {schema : Schema} (defined : (name, schema) ∈ definitions)
    (isArray : schema.isArray = true) : Holds definitions name .definition schema
  | property {name property : String} {schema p : Schema} (defined : (name, schema) ∈ definitions)
    (isProperty : (property, p) ∈ schema.properties) (plain : p.oneOf = [])
    (refers : p.isAlias = true ∨ p.isArray = true) : Holds definitions name (.property property) p

theorem Holds.mem_keys {definitions : Table Schema} {name : String} {site : Site} {schema : Schema}
    (h : Holds definitions name site schema) : name ∈ definitions.keys := by
  cases h with
  | alternative defined | propertyAlternative defined | array defined | property defined =>
    exact List.mem_map.mpr ⟨_, defined, rfl⟩

/-- A link from where a schema is held to the definition that it refers to. -/
structure Link.IsOf (l : Link) (definitions : Table Schema) (schema : Schema) : Prop where
  held : Holds definitions l.source l.site schema
  refers : ∃ ref, schema.refTarget = some (ref, l.forward) ∧ definitionName? ref = some l.target
  defined : definitions.get? l.target = some l.targetSchema

/-- Whether a property of the target counts as evidence. The one on which the link was found does
not count if a definition refers to itself. -/
def Link.Counts (l : Link) (property : String) : Prop :=
  ¬ (l.source = l.target ∧ l.site.origin = some property)

/-- A reference to the source of a link. -/
def Link.Back (l : Link) (ref : String × Multiplicity) : Prop :=
  definitionName? ref.1 = some l.source

/-- How many of its source the target of a link holds: as many as the first property says that
counts and refers to the source, by its first such reference. -/
inductive Link.HoldsBack (l : Link) : Option Multiplicity → Prop
  | never (noBack : ∀ entry ∈ l.targetSchema.properties, l.Counts entry.1 →
    ∀ ref ∈ entry.2.references, ¬ l.Back ref) : HoldsBack l none
  | first {before after : List (String × Schema)} {property : String} {p : Schema}
    {earlier later : List (String × Multiplicity)} {ref : String} {m : Multiplicity}
    (properties : l.targetSchema.properties = before ++ (property, p) :: after)
    (noneBefore : ∀ entry ∈ before, l.Counts entry.1 → ∀ ref ∈ entry.2.references, ¬ l.Back ref)
    (counts : l.Counts property) (references : p.references = earlier ++ (ref, m) :: later)
    (noneEarlier : ∀ ref ∈ earlier, ¬ l.Back ref) (back : l.Back (ref, m)) : HoldsBack l (some m)

theorem evidenceIn_eq_some_iff {name : String} {p : Schema} {m : Multiplicity} :
    evidenceIn name p = some m ↔ ∃ earlier ref later, p.references = earlier ++ (ref, m) :: later ∧
      (∀ r ∈ earlier, definitionName? r.1 ≠ some name) ∧ definitionName? ref = some name := by
  rw [evidenceIn, Option.map_eq_some_iff]
  constructor
  · rintro ⟨⟨ref, found⟩, isFirst, rfl⟩
    obtain ⟨back, earlier, later, split, none⟩ := List.find?_eq_some_iff_append.mp isFirst
    exact ⟨earlier, ref, later, split, by simpa using none, by simpa using back⟩
  · rintro ⟨earlier, ref, later, split, none, back⟩
    refine ⟨(ref, m), List.find?_eq_some_iff_append.mpr
      ⟨by simpa using back, earlier, later, split, ?_⟩, rfl⟩
    simpa using none

theorem evidenceIn_eq_none_iff {name : String} {p : Schema} :
    evidenceIn name p = none ↔ ∀ r ∈ p.references, definitionName? r.1 ≠ some name := by
  simp [evidenceIn]

/-- What the target holds back is what the evidence for the cardinality says. -/
theorem holdsBack_iff {l : Link} {back : Option Multiplicity} : l.HoldsBack back ↔
    (backReference? l.source l.target l.targetSchema l.site.origin).map (·.multiplicity) = back := by
  have skipped : ∀ entry : String × Schema,
      (if l.source = l.target ∧ l.site.origin = some entry.1 then none
        else (evidenceIn l.source entry.2).map (BackReference.mk entry.1)) = none ↔
      (l.Counts entry.1 → ∀ ref ∈ entry.2.references, ¬ l.Back ref) := by
    intro entry
    by_cases counts : l.source = l.target ∧ l.site.origin = some entry.1
    · simp [Link.Counts, counts]
    · rw [if_neg counts, Option.map_eq_none_iff, evidenceIn_eq_none_iff]
      exact ⟨fun none _ => none, fun none => none counts⟩
  rw [backReference?]
  constructor
  · intro holds
    cases holds with
    | never noBack =>
      rw [Option.map_eq_none_iff, List.findSome?_eq_none_iff]
      exact fun entry member => (skipped entry).mpr (noBack entry member)
    | first properties noneBefore counts references noneEarlier back =>
      rename_i before after property p earlier later ref m
      have evidence : evidenceIn l.source p = some m :=
        evidenceIn_eq_some_iff.mpr ⟨earlier, ref, later, references, noneEarlier, back⟩
      rw [Option.map_eq_some_iff]
      refine ⟨⟨property, m⟩, List.findSome?_eq_some_iff.mpr
        ⟨before, (property, p), after, properties, ?_, ?_⟩, rfl⟩
      · refine (if_neg counts).trans ?_
        rw [evidence]
        rfl
      · exact fun entry member => (skipped entry).mpr (noneBefore entry member)
  · intro evidence
    cases back with
    | none =>
      rw [Option.map_eq_none_iff, List.findSome?_eq_none_iff] at evidence
      exact .never fun entry member => (skipped entry).mp (evidence entry member)
    | some m =>
      obtain ⟨found, isFirst, rfl⟩ := Option.map_eq_some_iff.mp evidence
      obtain ⟨before, ⟨property, p⟩, after, properties, here, noneBefore⟩ :=
        List.findSome?_eq_some_iff.mp isFirst
      dsimp only at here
      by_cases counts : l.source = l.target ∧ l.site.origin = some property
      · rw [if_pos counts] at here
        cases here
      · rw [if_neg counts] at here
        obtain ⟨m, inProperty, rfl⟩ := Option.map_eq_some_iff.mp here
        obtain ⟨earlier, ref, later, references, noneEarlier, back⟩ :=
          evidenceIn_eq_some_iff.mp inProperty
        exact .first properties (fun entry member => (skipped entry).mp (noneBefore entry member))
          counts references noneEarlier back

/-- A link needs the keys of its cardinality. -/
theorem needs_cardinality_iff {l : Link} {key : PendingKey} : l.Needs l.cardinality key ↔
    ∃ back, l.HoldsBack back ∧ l.Needs (.ofEvidence l.forward back) key := by
  constructor
  · intro needs
    exact ⟨_, holdsBack_iff.mpr rfl, needs⟩
  · rintro ⟨back, holds, needs⟩
    rw [← holdsBack_iff.mp holds] at needs
    exact needs

theorem exists_holdsBack (l : Link) : ∃ back, l.HoldsBack back := ⟨_, holdsBack_iff.mpr rfl⟩

theorem Link.HoldsBack.unique {l : Link} {back back' : Option Multiplicity}
    (holds : l.HoldsBack back) (holds' : l.HoldsBack back') : back = back' :=
  (holdsBack_iff.mp holds).symm.trans (holdsBack_iff.mp holds')

theorem Link.HoldsBack.cardinality_eq {l : Link} {back : Option Multiplicity}
    (holds : l.HoldsBack back) : l.cardinality = .ofEvidence l.forward back := by
  rw [Link.cardinality, inferCardinality, holdsBack_iff.mp holds]

theorem ofEvidence_inj {forward forward' : Multiplicity} {back back' : Option Multiplicity} :
    Cardinality.ofEvidence forward back = .ofEvidence forward' back' ↔
      forward = forward' ∧ back = back' := by
  constructor
  · intro same
    cases forward <;> cases forward' <;> rcases back with _ | (_ | _) <;>
      rcases back' with _ | (_ | _) <;> first | exact ⟨rfl, rfl⟩ | cases same
  · rintro ⟨rfl, rfl⟩
    rfl

/-- A link has a cardinality exactly if it holds, and its target holds back, what makes it. -/
theorem cardinality_eq_ofEvidence_iff {l : Link} (forward : Multiplicity)
    (back : Option Multiplicity) :
    l.cardinality = .ofEvidence forward back ↔ l.forward = forward ∧ l.HoldsBack back := by
  obtain ⟨held, holds⟩ := exists_holdsBack l
  rw [holds.cardinality_eq, ofEvidence_inj]
  constructor
  · rintro ⟨isForward, rfl⟩
    exact ⟨isForward, holds⟩
  · rintro ⟨isForward, holds'⟩
    exact ⟨isForward, holds.unique holds'⟩

/-- A link is many-to-many if it holds many, and its target holds many back. -/
theorem cardinality_eq_manyToMany_iff {l : Link} :
    l.cardinality = .manyToMany ↔ l.forward = .many ∧ l.HoldsBack (some .many) :=
  cardinality_eq_ofEvidence_iff .many (some .many)

/-! Links and steps. -/

theorem definition_eq_ok {owner ref name : String} {schema : Schema} :
    source.definition owner ref = .ok (name, schema) ↔
      definitionName? ref = some name ∧ source.definitions.get? name = some schema := by
  rw [Source.definition]
  cases named : definitionName? ref with
  | none => simp
  | some n =>
    cases known : source.definitions.get? n with
    | none =>
      simp only [Option.bind_some, known, Option.map_none, Option.some.injEq, reduceCtorEq,
        false_iff, not_and]
      rintro rfl found
      rw [known] at found
      cases found
    | some schema' =>
      simp only [Option.bind_some, known, Option.map_some, Except.ok.injEq, Prod.mk.injEq,
        Option.some.injEq]
      constructor
      · rintro ⟨rfl, rfl⟩
        exact ⟨rfl, known⟩
      · rintro ⟨rfl, found⟩
        rw [known] at found
        exact ⟨rfl, Option.some.inj found⟩

theorem Mention.link_eq_ok {m : Mention} {l : Link} : m.link source = .ok l ↔
    l.source = m.source ∧ l.site = m.site ∧ l.forward = m.forward ∧
      definitionName? m.ref = some l.target ∧
      source.definitions.get? l.target = some l.targetSchema := by
  constructor
  · intro h
    obtain ⟨⟨target, schema⟩, found, made⟩ := bind_eq_ok.mp h
    cases made
    obtain ⟨named, known⟩ := definition_eq_ok.mp found
    exact ⟨rfl, rfl, rfl, named, known⟩
  · rintro ⟨isSource, isSite, isForward, named, known⟩
    obtain ⟨linkSource, site, target, schema, forward⟩ := l
    have found : source.definition (m.site.owner m.source) m.ref = .ok (target, schema) :=
      definition_eq_ok.mpr ⟨named, known⟩
    simp only at isSource isSite isForward
    rw [Mention.link, found, isSource, isSite, isForward]
    rfl

/-- The references that steps place. -/
def IsPlaced (definitions : Table Schema) (m : Mention) : Prop :=
  (∃ a ∈ alternatives definitions, a.schema.primitive = none ∧ a.mention? = some m) ∨
    m ∈ mentions definitions

theorem Alternative.effect_of_mention {a : Alternative} {m : Mention}
    (notPrimitive : a.schema.primitive = none) (mention : a.mention? = some m) :
    a.effect source = m.effect source := by
  rw [Alternative.effect, notPrimitive, mention]

/-- Keys and join tables come from the references that are placed. -/
theorem placed_of_mem (h : effects files source = .ok xs) {x : Effect} (member : x ∈ xs) :
    (x.keys = [] ∧ x.joinTable = none) ∨
      ∃ m, IsPlaced source.definitions m ∧ m.effect source = .ok x := by
  refine forall_effects (motive := fun x => (x.keys = [] ∧ x.joinTable = none) ∨
    ∃ m, IsPlaced source.definitions m ∧ m.effect source = .ok x) h ?_ ?_ ?_ x member
  · intro m _ x does
    obtain ⟨_, _, does⟩ := bind_eq_ok.mp does
    cases does
    exact Or.inl ⟨rfl, rfl⟩
  · intro a isAlternative x does
    rw [Alternative.effect] at does
    split at does
    · cases does
      exact Or.inl ⟨rfl, rfl⟩
    · split at does
      · exact Or.inr ⟨_, Or.inl ⟨a, isAlternative, ‹_›, ‹_›⟩, does⟩
      · cases does
  · exact fun m isMention x does => Or.inr ⟨m, Or.inr isMention, does⟩

/-- Every reference that is placed has its effect. -/
theorem mem_of_placed (h : effects files source = .ok xs) {m : Mention} {x : Effect}
    (isPlaced : IsPlaced source.definitions m) (does : m.effect source = .ok x) : x ∈ xs := by
  obtain ⟨included, expanded, placed, first, second, third, rfl⟩ := effects_eq_ok h
  rcases isPlaced with ⟨a, isAlternative, notPrimitive, mention⟩ | isMention
  · rw [← Alternative.effect_of_mention notPrimitive mention] at does
    simp [(mem_of_mapM second x).mpr ⟨a, isAlternative, does⟩]
  · simp [(mem_of_mapM third x).mpr ⟨m, isMention, does⟩]

/-- If all steps have an effect, all references have one. -/
theorem exists_effect (h : effects files source = .ok xs) {m : Mention}
    (isPlaced : IsPlaced source.definitions m) : ∃ x, m.effect source = .ok x := by
  obtain ⟨included, expanded, placed, first, second, third, rfl⟩ := effects_eq_ok h
  rcases isPlaced with ⟨a, isAlternative, notPrimitive, mention⟩ | isMention
  · obtain ⟨x, _, does⟩ := exists_of_mem_mapM second isAlternative
    rw [Alternative.effect_of_mention notPrimitive mention] at does
    exact ⟨x, does⟩
  · obtain ⟨x, _, does⟩ := exists_of_mem_mapM third isMention
    exact ⟨x, does⟩

theorem exists_mention (h : effects files source = .ok xs) {a : Alternative}
    (isAlternative : a ∈ alternatives source.definitions) (notPrimitive : a.schema.primitive = none) :
    ∃ m, a.mention? = some m := by
  obtain ⟨included, expanded, placed, first, second, third, rfl⟩ := effects_eq_ok h
  obtain ⟨x, _, does⟩ := exists_of_mem_mapM second isAlternative
  rw [Alternative.effect, notPrimitive] at does
  cases mention : a.mention? with
  | some m => exact ⟨m, rfl⟩
  | none =>
    rw [mention] at does
    cases does

/-! Places. -/

theorem mem_alternatives {definitions : Table Schema} {a : Alternative} :
    a ∈ alternatives definitions ↔ ∃ name schema, (name, schema) ∈ definitions ∧
      ((∃ choice ∈ schema.oneOf, a = ⟨name, none, choice⟩) ∨
        ∃ property p, (property, p) ∈ schema.properties ∧
          ∃ choice ∈ p.oneOf, a = ⟨name, some property, choice⟩) := by
  simp only [alternatives, Alternative.ofDefinition, List.mem_flatMap, List.mem_append,
    List.mem_map, Prod.exists, eq_comm (a := a)]

theorem Mention.mem_ofItems {m : Mention} {name : String} {schema : Schema} :
    m ∈ Mention.ofItems name schema ↔ schema.isArray = true ∧ ∃ ref, schema.itemsRef = some ref ∧
      m = ⟨name, .definition, ref, .many⟩ := by
  rw [Mention.ofItems]
  by_cases isArray : schema.isArray = true
  · simp [isArray, eq_comm (a := m)]
  · simp [isArray]

theorem Mention.mem_ofProperty {m : Mention} {name property : String} {p : Schema} :
    m ∈ Mention.ofProperty name property p ↔ p.oneOf = [] ∧ ∃ ref forward,
      p.refTarget = some (ref, forward) ∧ m = ⟨name, .property property, ref, forward⟩ := by
  rw [Mention.ofProperty]
  by_cases plain : p.oneOf = []
  · simp [plain, eq_comm (a := m)]
  · simp [plain]

theorem mem_mentions {definitions : Table Schema} {m : Mention} :
    m ∈ mentions definitions ↔ ∃ name schema, (name, schema) ∈ definitions ∧
      ((schema.isArray = true ∧ ∃ ref, schema.itemsRef = some ref ∧
          m = ⟨name, .definition, ref, .many⟩) ∨
        ∃ property p, (property, p) ∈ schema.properties ∧ p.oneOf = [] ∧
          ∃ ref forward, p.refTarget = some (ref, forward) ∧
            m = ⟨name, .property property, ref, forward⟩) := by
  simp only [mentions, Mention.ofDefinition, List.mem_flatMap, List.mem_append, Prod.exists,
    Mention.mem_ofItems, Mention.mem_ofProperty]

theorem holds_of_alternative {definitions : Table Schema} {a : Alternative}
    (isAlternative : a ∈ alternatives definitions) (notPrimitive : a.schema.primitive = none) :
    Holds definitions a.source a.site a.schema := by
  obtain ⟨name, schema, defined, ⟨choice, isChoice, rfl⟩ |
    ⟨property, p, isProperty, choice, isChoice, rfl⟩⟩ := mem_alternatives.mp isAlternative
  · exact .alternative defined isChoice notPrimitive
  · exact .propertyAlternative defined isProperty isChoice notPrimitive

/-- Definitions that can be compiled have a shape that can. -/
theorem problems_of_checkDefinitions {definitions : List (String × Schema)}
    (h : checkDefinitions definitions = .ok ()) {name : String} {schema : Schema}
    (defined : (name, schema) ∈ definitions) : definitionProblem? schema = none ∧
      ∀ property p, (property, p) ∈ schema.properties → propertyProblem? p = none := by
  have refused : ∀ owner problem, refuse owner problem = .ok () → problem = none := by
    intro owner problem h
    cases problem with
    | none => rfl
    | some problem => cases h
  have properties : ∀ owner (properties : List (String × Schema)),
      checkProperties owner properties = .ok () →
        ∀ property p, (property, p) ∈ properties → propertyProblem? p = none := by
    intro owner properties h
    induction properties with
    | nil => simp
    | cons entry rest ih =>
      obtain ⟨_, first, h⟩ := bind_eq_ok.mp h
      intro property p member
      rcases List.mem_cons.mp member with rfl | later
      · exact refused _ _ first
      · exact ih h property p later
  induction definitions with
  | nil => cases defined
  | cons definition rest ih =>
    obtain ⟨_, first, h⟩ := bind_eq_ok.mp h
    rcases List.mem_cons.mp defined with rfl | later
    · obtain ⟨_, shape, checked⟩ := bind_eq_ok.mp first
      exact ⟨refused _ _ shape, properties _ _ checked⟩
    · exact ih h later

/-- No definition that can be compiled is a reference. -/
theorem ref_of_checkDefinitions {definitions : List (String × Schema)}
    (h : checkDefinitions definitions = .ok ()) {name : String} {schema : Schema}
    (defined : (name, schema) ∈ definitions) : schema.ref = none := by
  have sound := (problems_of_checkDefinitions h defined).1
  cases isRef : schema.ref with
  | none => rfl
  | some raw =>
    rw [definitionProblem?, Schema.isAlias, isRef] at sound
    cases sound

/-- An array definition that can be compiled refers to what its items refer to. -/
theorem refTarget_of_array {schema : Schema} (sound : definitionProblem? schema = none)
    (isArray : schema.isArray = true) :
    ∃ ref, schema.itemsRef = some ref ∧ schema.refTarget = some (ref, .many) := by
  rw [definitionProblem?] at sound
  cases isAlias : schema.ref with
  | some ref => simp [Schema.isAlias, isAlias] at sound
  | none =>
    cases items : schema.itemsRef with
    | none =>
      have notAlias : schema.isAlias = false := by simp [Schema.isAlias, isAlias]
      rw [notAlias] at sound
      split at sound
      · cases sound
      · split at sound
        · cases sound
        · simp [items] at sound
    | some ref => exact ⟨ref, rfl, by simp [Schema.refTarget, isAlias, isArray, items]⟩

/-- Items of an array property that can be compiled are a reference. -/
theorem itemsRef_of_itemsProblem? {items : Option Schema} (sound : itemsProblem? items = none) :
    ∃ ref, items.bind (·.ref) = some ref := by
  cases items with
  | none => cases sound
  | some items =>
    rw [itemsProblem?] at sound
    split at sound
    · exact Option.isSome_iff_exists.mp ‹items.isAlias = true›
    · split at sound
      · cases sound
      · split at sound <;> cases sound

/-- A reference property that can be compiled refers to something. -/
theorem refTarget_of_property {p : Schema} (sound : propertyProblem? p = none)
    (plain : p.oneOf = []) (refers : p.isAlias = true ∨ p.isArray = true) :
    ∃ ref forward, p.refTarget = some (ref, forward) := by
  rw [Schema.refTarget]
  cases isAlias : p.ref with
  | some ref => exact ⟨ref, .one, rfl⟩
  | none =>
    have notAlias : p.isAlias = false := by simp [Schema.isAlias, isAlias]
    have isArray : p.isArray = true := by simpa [notAlias] using refers
    have notPrimitive : p.primitive = none := by
      have type : p.type = some "array" := by simpa [Schema.isArray] using isArray
      rw [Schema.primitive, type]
      decide
    simp only [propertyProblem?, notPrimitive, notAlias, plain, isArray, ↓reduceIte,
      Option.isSome_none, Bool.or_self, List.isEmpty_nil, Bool.not_true, Bool.false_eq_true]
      at sound
    obtain ⟨ref, items⟩ := itemsRef_of_itemsProblem? sound
    exact ⟨ref, .many, by simp [isArray, Schema.itemsRef, items]⟩

/-- The schemas at the places of definitions that can be compiled are the references that steps
place. -/
theorem isPlaced_iff (checked : checkDefinitions definitions = .ok ()) {m : Mention} :
    IsPlaced definitions m ↔ ∃ schema, Holds definitions m.source m.site schema ∧
      schema.refTarget = some (m.ref, m.forward) := by
  constructor
  · rintro (⟨a, isAlternative, notPrimitive, mention⟩ | isMention)
    · obtain ⟨⟨ref, forward⟩, target, rfl⟩ := Option.map_eq_some_iff.mp mention
      exact ⟨a.schema, holds_of_alternative isAlternative notPrimitive, target⟩
    · obtain ⟨name, schema, defined, ⟨isArray, ref, items, rfl⟩ |
        ⟨property, p, isProperty, plain, ref, forward, target, rfl⟩⟩ := mem_mentions.mp isMention
      · obtain ⟨sound, _⟩ := problems_of_checkDefinitions checked defined
        obtain ⟨ref', items', target⟩ := refTarget_of_array sound isArray
        rw [items] at items'
        cases items'
        exact ⟨schema, .array defined isArray, target⟩
      · refine ⟨p, .property defined isProperty plain ?_, target⟩
        rw [Schema.refTarget] at target
        split at target
        · simp [Schema.isAlias, ‹p.ref = some _›]
        · exact Or.inr (by_contra fun notArray => by simp [notArray] at target)
  · rintro ⟨schema, held, target⟩
    obtain ⟨source, site, ref, forward⟩ := m
    cases held with
    | alternative defined isChoice notPrimitive =>
      refine Or.inl ⟨⟨source, none, schema⟩, mem_alternatives.mpr ?_, notPrimitive, ?_⟩
      · exact ⟨source, _, defined, Or.inl ⟨schema, isChoice, rfl⟩⟩
      · rw [Alternative.mention?, target]
        rfl
    | @propertyAlternative property _ _ _ defined isProperty isChoice notPrimitive =>
      refine Or.inl ⟨⟨source, some property, schema⟩, mem_alternatives.mpr ?_, notPrimitive, ?_⟩
      · exact ⟨source, _, defined, Or.inr ⟨_, _, isProperty, schema, isChoice, rfl⟩⟩
      · rw [Alternative.mention?, target]
        rfl
    | array defined isArray =>
      obtain ⟨sound, _⟩ := problems_of_checkDefinitions checked defined
      obtain ⟨ref', items, target'⟩ := refTarget_of_array sound isArray
      rw [target] at target'
      cases target'
      exact Or.inr (mem_mentions.mpr ⟨source, schema, defined, Or.inl ⟨isArray, ref, items, rfl⟩⟩)
    | property defined isProperty plain _ =>
      refine Or.inr (mem_mentions.mpr ⟨source, _, defined, Or.inr ?_⟩)
      exact ⟨_, schema, isProperty, plain, ref, forward, target, rfl⟩

/-- Every place in a description that compiles refers to a definition. -/
theorem exists_link (checked : checkDefinitions source.definitions = .ok ())
    (h : effects files source = .ok xs) {name : String} {site : Site} {schema : Schema}
    (held : Holds source.definitions name site schema) :
    ∃ l : Link, l.source = name ∧ l.site = site ∧ l.IsOf source.definitions schema := by
  have refers : ∃ ref forward, schema.refTarget = some (ref, forward) := by
    cases held with
    | alternative defined isChoice notPrimitive =>
      have isAlternative := mem_alternatives.mpr
        ⟨name, _, defined, Or.inl ⟨schema, isChoice, rfl⟩⟩
      obtain ⟨m, mention⟩ := exists_mention h isAlternative notPrimitive
      obtain ⟨⟨ref, forward⟩, target, _⟩ := Option.map_eq_some_iff.mp mention
      exact ⟨ref, forward, target⟩
    | propertyAlternative defined isProperty isChoice notPrimitive =>
      have isAlternative := mem_alternatives.mpr
        ⟨name, _, defined, Or.inr ⟨_, _, isProperty, schema, isChoice, rfl⟩⟩
      obtain ⟨m, mention⟩ := exists_mention h isAlternative notPrimitive
      obtain ⟨⟨ref, forward⟩, target, _⟩ := Option.map_eq_some_iff.mp mention
      exact ⟨ref, forward, target⟩
    | array defined isArray =>
      obtain ⟨sound, _⟩ := problems_of_checkDefinitions checked defined
      obtain ⟨ref, _, target⟩ := refTarget_of_array sound isArray
      exact ⟨ref, .many, target⟩
    | property defined isProperty plain isReference =>
      obtain ⟨_, sound⟩ := problems_of_checkDefinitions checked defined
      exact refTarget_of_property (sound _ _ isProperty) plain isReference
  obtain ⟨ref, forward, target⟩ := refers
  have isPlaced := (isPlaced_iff (m := ⟨name, site, ref, forward⟩) checked).mpr
    ⟨schema, held, target⟩
  obtain ⟨x, does⟩ := exists_effect h isPlaced
  obtain ⟨l, link, _⟩ := bind_eq_ok.mp does
  obtain ⟨rfl, rfl, isForward, named, known⟩ := Mention.link_eq_ok.mp link
  exact ⟨l, rfl, rfl, held, ⟨ref, by rw [target, isForward], named⟩, known⟩

/-- What is placed is a link. -/
theorem link_of_placed (checked : checkDefinitions source.definitions = .ok ()) {m : Mention}
    {x : Effect} (isPlaced : IsPlaced source.definitions m) (does : m.effect source = .ok x) :
    ∃ (l : Link) (schema : Schema), l.IsOf source.definitions schema ∧ l.effect source = .ok x := by
  obtain ⟨schema, held, target⟩ := (isPlaced_iff checked).mp isPlaced
  obtain ⟨l, link, does⟩ := bind_eq_ok.mp does
  obtain ⟨isSource, isSite, isForward, named, known⟩ := Mention.link_eq_ok.mp link
  refine ⟨l, schema, ⟨?_, ⟨m.ref, ?_, named⟩, known⟩, does⟩
  · rw [isSource, isSite]
    exact held
  · rw [target, isForward]

/-- Every link is placed. -/
theorem placed_of_link (checked : checkDefinitions source.definitions = .ok ())
    (h : effects files source = .ok xs) {l : Link} {schema : Schema}
    (isOf : l.IsOf source.definitions schema) : ∃ x ∈ xs, l.effect source = .ok x := by
  obtain ⟨held, ⟨ref, target, named⟩, known⟩ := isOf
  have isPlaced := (isPlaced_iff (m := ⟨l.source, l.site, ref, l.forward⟩) checked).mpr
    ⟨schema, held, target⟩
  obtain ⟨x, does⟩ := exists_effect h isPlaced
  have member := mem_of_placed h isPlaced does
  have link : Mention.link source ⟨l.source, l.site, ref, l.forward⟩ = .ok l :=
    Mention.link_eq_ok.mpr ⟨rfl, rfl, rfl, named, known⟩
  rw [Mention.effect, link, ok_bind] at does
  exact ⟨x, member, does⟩

/-- The keys that are to be put in place are those that the links of the definitions need. -/
theorem mem_keys_iff_needs (checked : checkDefinitions source.definitions = .ok ())
    (h : effects files source = .ok xs) {key : PendingKey} : (∃ x ∈ xs, key ∈ x.keys) ↔
      ∃ (l : Link) (schema : Schema), l.IsOf source.definitions schema ∧
        l.Needs l.cardinality key := by
  have placed : ∀ {l : Link} {x : Effect}, l.effect source = .ok x →
      (key ∈ x.keys ↔ l.Needs l.cardinality key) := by
    intro l x does
    obtain ⟨e, f, p, madeSource, madeTarget, placed, rfl⟩ := Link.effect_eq_ok does
    exact mem_keys_iff (entityOf_eq_ok madeSource).2 (entityOf_eq_ok madeTarget).2 placed key
  constructor
  · rintro ⟨x, member, isKey⟩
    rcases placed_of_mem h member with ⟨noKeys, _⟩ | ⟨m, isPlaced, does⟩
    · rw [noKeys] at isKey
      cases isKey
    · obtain ⟨l, schema, isOf, does⟩ := link_of_placed checked isPlaced does
      exact ⟨l, schema, isOf, (placed does).mp isKey⟩
  · rintro ⟨l, schema, isOf, needs⟩
    obtain ⟨x, member, does⟩ := placed_of_link checked h isOf
    exact ⟨x, member, (placed does).mpr needs⟩

/-! The keys of a graph. -/

theorem keyColumnFor_injective {a b : String}
    (same : Entity.keyColumnFor a = Entity.keyColumnFor b) : a = b := by
  have texts := congrArg String.toList same
  rw [Entity.keyColumnFor, Entity.keyColumnFor, String.toList_append, String.toList_append] at texts
  exact String.toList_inj.mp (List.append_cancel_right texts)

/-- With one label for a definition, keys under one name point at the same. -/
theorem pending_agree (labels : (source.definitions.keys.map Naming.flat).Nodup)
    (h : ∀ x ∈ xs, x.Backed source) (reference : String → String) :
    Agree reference (unbound files source xs).pending := by
  intro k member k' member' same
  obtain ⟨x, isEffect, isKey⟩ := mem_pending_unbound.mp member
  obtain ⟨x', isEffect', isKey'⟩ := mem_pending_unbound.mp member'
  rw [(h x isEffect).column k isKey, (h x' isEffect').column k' isKey'] at same
  have target := List.inj_on_of_nodup_map labels ((h x isEffect).target k isKey)
    ((h x' isEffect').target k' isKey') (keyColumnFor_injective same)
  rw [target]

theorem Agree.keysOf {reference : String → String} {keys : List PendingKey}
    (h : Agree reference keys) (owner : KeyOwner) : Agree reference (keysOf owner keys) :=
  fun k member k' member' => h k (List.mem_filter.mp member).1 k' (List.mem_filter.mp member').1

theorem mem_keysOf {owner : KeyOwner} {keys : List PendingKey} {key : PendingKey} :
    key ∈ keysOf owner keys ↔ key ∈ keys ∧ key.owner = owner := by
  simp [keysOf]

theorem clean_unbound (h : effects files source = .ok xs) {name : String} {e : Entity}
    (there : (unbound files source xs).entities.get? name = some e) : Clean e.columns := by
  rw [get?_unbound, Option.map_eq_some_iff] at there
  obtain ⟨schema, _, rfl⟩ := there
  apply clean_changeAll
  · exact fun x member => effects_clean h x (List.mem_filter.mp member).1
  · exact clean_addScalarColumns Clean.nil _ _

theorem clean_joinTable (h : ∀ x ∈ xs, x.Backed source) {name : String} {t : JoinTable}
    (there : (unbound files source xs).joinTables.get? name = some t) : Clean t.columns := by
  obtain ⟨x, isEffect, joins, _⟩ := exists_effect_of_joinTable there
  rw [(h x isEffect).joinTable t joins]
  exact Clean.nil

/-- No table has a foreign key before the keys are put in place. -/
theorem clean_columnsOf (h : effects files source = .ok xs) {owner : KeyOwner}
    {columns : Table Column} (there : columnsOf (unbound files source xs).entities
      (unbound files source xs).joinTables owner = some columns) : Clean columns := by
  cases owner with
  | entity name =>
    obtain ⟨e, found, rfl⟩ := Option.map_eq_some_iff.mp there
    exact clean_unbound h found
  | joinTable name =>
    obtain ⟨t, found, rfl⟩ := Option.map_eq_some_iff.mp there
    exact clean_joinTable (effects_backed h) found

/-- What a key points at is there in the end, and is referenced as before. -/
theorem exists_referenced (h : ∀ x ∈ xs, x.Backed source) {key : PendingKey}
    (member : key ∈ (unbound files source xs).pending) :
    ∃ e, ((unbound files source xs).bound (unbound files source xs).pending).entities.get?
        key.target = some e ∧
      e.foreignKeyTarget = (unbound files source xs).reference key.target := by
  obtain ⟨e, there⟩ := Table.mem_keys_iff.mp (unbound_backs h key member).target
  rw [get?_bound_entities, State.reference, there]
  exact ⟨_, rfl, rfl⟩

/-- The keys of a graph are those of its tables. -/
theorem mem_foreignKeys_iff_columns {g : Graph} (uniqueEntities : g.entities.keys.Nodup)
    (uniqueJoinTables : g.joinTables.keys.Nodup) {key : ForeignKey} : key ∈ g.foreignKeys ↔
      ∃ owner columns, columnsOf g.entities g.joinTables owner = some columns ∧
        owner.name = key.owner ∧ (key.column, key.target) ∈ foreignKeyColumns columns := by
  obtain ⟨name, column, target⟩ := key
  simp only [Graph.foreignKeys, Entity.foreignKeys, List.mem_append, List.mem_flatMap, List.mem_map,
    Prod.exists, ForeignKey.mk.injEq]
  constructor
  · rintro (⟨_, e, there, _, _, isKey, rfl, rfl, rfl⟩ | ⟨_, t, there, _, _, isKey, rfl, rfl, rfl⟩)
    · rw [← Table.get?_eq_some_iff uniqueEntities] at there
      exact ⟨.entity _, _, by rw [columnsOf, there, Option.map_some], rfl, isKey⟩
    · rw [← Table.get?_eq_some_iff uniqueJoinTables] at there
      exact ⟨.joinTable _, _, by rw [columnsOf, there, Option.map_some], rfl, isKey⟩
  · rintro ⟨owner, columns, there, rfl, isKey⟩
    cases owner with
    | entity name =>
      obtain ⟨e, found, rfl⟩ := Option.map_eq_some_iff.mp there
      rw [Table.get?_eq_some_iff uniqueEntities] at found
      exact Or.inl ⟨name, e, found, column, target, isKey, rfl, rfl, rfl⟩
    | joinTable name =>
      obtain ⟨t, found, rfl⟩ := Option.map_eq_some_iff.mp there
      rw [Table.get?_eq_some_iff uniqueJoinTables] at found
      exact Or.inr ⟨name, t, found, column, target, isKey, rfl, rfl, rfl⟩

/-- The keys of a graph are those that were to be put in place. -/
theorem mem_foreignKeys_bound (unique : source.definitions.keys.Nodup)
    (labels : (source.definitions.keys.map Naming.flat).Nodup) (h : effects files source = .ok xs)
    {g : Graph} (entities : g.entities =
      ((unbound files source xs).bound (unbound files source xs).pending).entities)
    (joinTables : g.joinTables =
      ((unbound files source xs).bound (unbound files source xs).pending).joinTables)
    {key : ForeignKey} : key ∈ g.foreignKeys ↔ ∃ needed ∈ (unbound files source xs).pending,
      key = ⟨needed.owner.name, needed.column,
        (unbound files source xs).reference needed.target⟩ := by
  have agree := @pending_agree files _ _ labels (effects_backed h) (unbound files source xs).reference
  have uniqueEntities : g.entities.keys.Nodup := by
    rw [entities, keys_entities_bound]
    exact unique
  have uniqueJoinTables : g.joinTables.keys.Nodup := by
    rw [joinTables]
    exact keys_joinTables_bound_nodup
  rw [mem_foreignKeys_iff_columns uniqueEntities uniqueJoinTables, entities, joinTables]
  simp only [columnsOf_bound, Option.map_eq_some_iff]
  constructor
  · rintro ⟨owner, _, ⟨columns, there, rfl⟩, isOwner, isKey⟩
    obtain ⟨needed, member, isNamed, references⟩ :=
      (mem_foreignKeyColumns_bindAll (agree.keysOf _) (clean_columnsOf h there)).mp isKey
    obtain ⟨isPending, rfl⟩ := mem_keysOf.mp member
    exact ⟨needed, isPending, by rw [isOwner, isNamed, references]⟩
  · rintro ⟨needed, member, rfl⟩
    obtain ⟨columns, there⟩ := (unbound_backs (effects_backed h) needed member).exists_columns
    refine ⟨needed.owner, _, ⟨columns, there, rfl⟩, rfl, ?_⟩
    exact (mem_foreignKeyColumns_bindAll (agree.keysOf _) (clean_columnsOf h there)).mpr
      ⟨needed, mem_keysOf.mpr ⟨member, rfl⟩, rfl, rfl⟩

theorem checkVersion_congr {d d' : Description} (same : d'.version? = d.version?) :
    checkVersion d' = checkVersion d := by
  rw [checkVersion, checkVersion, same]

/-- The steps of a build that ends well, with the definitions it read and the tables it made. -/
structure Steps (files : FileTree) (d : Description) (options : Options) (g : Graph)
    (definitions : Table Schema) (s : State) : Prop where
  version : checkVersion d = .ok ()
  read : d.definitions = .ok definitions
  tabled : tables ⟨d, definitions, options⟩ { resolver := Resolver.fresh files } = .ok s
  served : d.servers = .ok g.servers
  collected : Endpoint.collect d g.servers s.entities options = .ok g.endpoints
  serving : Endpoint.microservices d g.servers = .ok g.microservices
  assembled : Namespace.assemble s.entities s.joinTables g.endpoints = .ok g.namespaces
  entities : g.entities = s.entities
  relationships : g.relationships = Graph.relationshipsOf s.entities
  joinTables : g.joinTables = s.joinTables
  options : g.options = options

theorem steps_of_graph {d : Description} {options : Options} {g : Graph}
    (h : graph files d options = .ok g) : ∃ definitions s, Steps files d options g definitions s := by
  obtain ⟨_, version, h⟩ := bind_eq_ok.mp h
  obtain ⟨source, isSource, h⟩ := bind_eq_ok.mp h
  obtain ⟨s, tabled, h⟩ := bind_eq_ok.mp h
  obtain ⟨servers, served, h⟩ := bind_eq_ok.mp h
  obtain ⟨endpoints, collected, h⟩ := bind_eq_ok.mp h
  obtain ⟨microservices, serving, h⟩ := bind_eq_ok.mp h
  obtain ⟨namespaces, assembled, h⟩ := bind_eq_ok.mp h
  obtain ⟨definitions, read, isSource⟩ := bind_eq_ok.mp isSource
  obtain rfl := Except.ok.inj h
  obtain rfl := Except.ok.inj isSource
  exact ⟨definitions, s, version, read, tabled, served, collected, serving, assembled, rfl, rfl, rfl,
    rfl⟩

/-- A build whose steps end well gives what they came to. -/
theorem Steps.graph_eq {d : Description} {options : Options} {g : Graph} {s : State}
    (h : Steps files d options g definitions s) : graph files d options = .ok g := by
  rw [graph, h.version, ok_bind, Source.of, h.read, ok_bind, pure_bind, h.tabled, ok_bind, h.served,
    ok_bind, h.collected, ok_bind, h.serving, ok_bind, h.assembled, ok_bind, ← h.relationships,
    ← h.entities, ← h.joinTables, ← h.options]
  rfl

theorem graph_eq_ok {d : Description} {options : Options} {g : Graph}
    (h : graph files d options = .ok g) : ∃ definitions s, d.definitions = .ok definitions ∧
      tables ⟨d, definitions, options⟩ { resolver := Resolver.fresh files } = .ok s ∧
      g.entities = s.entities ∧ g.joinTables = s.joinTables := by
  obtain ⟨definitions, s, steps⟩ := steps_of_graph h
  exact ⟨definitions, s, steps.read, steps.tabled, steps.entities, steps.joinTables⟩

/-- A key of a graph that a link needs: on the table that the cardinality of the link says, under
the label of the entity that it points at. -/
def Link.HasKey (l : Link) (g : Graph) (key : ForeignKey) : Prop :=
  ∃ (back : Option Multiplicity) (needed : PendingKey) (e : Entity),
    l.HoldsBack back ∧ l.Needs (.ofEvidence l.forward back) needed ∧
    g.entities.get? needed.target = some e ∧
    key = ⟨needed.owner.name, needed.column, e.foreignKeyTarget⟩

/-- If a description with one label for a definition compiles, every place that may refer to a
definition does, and the foreign keys are exactly those of the links from there. -/
theorem mem_foreignKeys_iff {d : Description} {options : Options} {g : Graph}
    (built : graph files d options = .ok g) (defined : d.definitions = .ok definitions)
    (labels : (definitions.map fun entry => Naming.flat entry.1).Nodup) :
    g.entities.keys = definitions.keys ∧
    (∀ name site schema, Holds definitions name site schema →
      ∃ l : Link, l.source = name ∧ l.site = site ∧ l.IsOf definitions schema) ∧
    ∀ key, key ∈ g.foreignKeys ↔
      ∃ (l : Link) (schema : Schema), l.IsOf definitions schema ∧ l.HasKey g key := by
  obtain ⟨definitions', s, defined', built, entities, joinTables⟩ := graph_eq_ok built
  rw [defined] at defined'
  cases defined'
  have labels : (definitions.keys.map Naming.flat).Nodup := by
    rw [Table.keys, List.map_map]
    exact labels
  have unique : definitions.keys.Nodup := List.Nodup.of_map _ labels
  obtain ⟨checked, xs, all, boundEntities, boundJoinTables⟩ := tables_eq_ok unique built
  rw [boundEntities] at entities
  rw [boundJoinTables] at joinTables
  refine ⟨?_, fun name site schema held => exists_link checked all held, ?_⟩
  · rw [entities, keys_bound_entities, keys_unbound]
  · intro key
    rw [mem_foreignKeys_bound unique labels all entities joinTables]
    constructor
    · rintro ⟨needed, member, rfl⟩
      obtain ⟨e, there, reference⟩ := exists_referenced (effects_backed all) member
      obtain ⟨l, schema, isOf, needs⟩ :=
        (mem_keys_iff_needs checked all).mp (mem_pending_unbound.mp member)
      obtain ⟨back, holds, row⟩ := needs_cardinality_iff.mp needs
      rw [← entities] at there
      exact ⟨l, schema, isOf, ⟨back, needed, e, holds, row, there, by rw [reference]⟩⟩
    · rintro ⟨l, schema, isOf, ⟨back, needed, e, holds, row, there, rfl⟩⟩
      have needs := needs_cardinality_iff.mpr ⟨back, holds, row⟩
      have member : needed ∈ (unbound files ⟨d, definitions, options⟩ xs).pending :=
        mem_pending_unbound.mpr ((mem_keys_iff_needs checked all).mpr ⟨l, schema, isOf, needs⟩)
      obtain ⟨e', there', reference⟩ := exists_referenced (effects_backed all) member
      rw [← entities, there] at there'
      cases there'
      exact ⟨needed, member, by rw [reference]⟩

/-- A reference to a definition of the document. -/
private def toDefinition (name : String) : Json :=
  .object [("$ref", .string ("#/components/schemas/" ++ name))]

/-- Posts with an author, whose key column is declared, with tags that hold posts by their one
alternative, and with the posts that answer them. -/
def blog : Description where
  document := .object [("openapi", .string "3.0.0"), ("components", .object [("schemas", .object [
    ("Post", .object [("properties", .object [
      ("author_id", .object [("type", .string "string")]),
      ("author", toDefinition "Author"),
      ("tags", .object [("type", .string "array"), ("items", toDefinition "Tag")]),
      ("answers", .object [("type", .string "array"), ("items", toDefinition "Post")])])]),
    ("Author", .object [("properties", .object [("name", .object [("type", .string "string")])])]),
    ("Tag", .object [("oneOf", .array [.object [("type", .string "array"),
      ("items", toDefinition "Post")]])])])])]

/-- The keys of the blog, with the links that need them. -/
theorem blog_foreignKeys : ∃ g definitions, graph {} blog {} = .ok g ∧
    blog.definitions = .ok definitions ∧
    g.foreignKeys = [⟨"Post", "author_id", "default.authors.identifier"⟩,
      ⟨"Post", "post_id", "default.posts.identifier"⟩,
      ⟨"Tag", "post_id", "default.posts.identifier"⟩,
      ⟨"posttag", "tag_id", "default.tags.identifier"⟩,
      ⟨"posttag", "post_id", "default.posts.identifier"⟩] ∧
    ∀ key ∈ g.foreignKeys, ∃ (l : Link) (schema : Schema), l.IsOf definitions schema ∧
      l.HasKey g key := by
  have run : (graph {} blog {}).toOption.map Graph.foreignKeys = some
      [⟨"Post", "author_id", "default.authors.identifier"⟩,
        ⟨"Post", "post_id", "default.posts.identifier"⟩,
        ⟨"Tag", "post_id", "default.posts.identifier"⟩,
        ⟨"posttag", "tag_id", "default.tags.identifier"⟩,
        ⟨"posttag", "post_id", "default.posts.identifier"⟩] := by
    decide +kernel
  have read : blog.definitions.toOption.map (fun definitions =>
      definitions.map fun entry => Naming.flat entry.1) = some ["post", "author", "tag"] := by
    decide +kernel
  obtain ⟨g, built, keys⟩ := exists_ok_of_map run
  obtain ⟨definitions, defined, labels⟩ := exists_ok_of_map read
  have unique : (definitions.map fun entry => Naming.flat entry.1).Nodup := by
    rw [labels]
    decide
  obtain ⟨_, _, isKey⟩ := mem_foreignKeys_iff built defined unique
  exact ⟨g, definitions, built, defined, keys, fun key member => (isKey key).mp member⟩

end ApiGraph.Build
