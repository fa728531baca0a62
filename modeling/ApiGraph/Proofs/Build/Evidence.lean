import ApiGraph.Proofs.Build.Links
import ApiGraph.Proofs.OpenApi.Fields

/-! What counts as evidence on a property, and what is placed for it. Evidence is every reference of
the property, its own and those of its alternatives. Placed are those of its alternatives that are
not primitive, or its own if it has no alternatives. So nothing is placed that does not count, and
the two are the same exactly if no definition is referred to beside the alternatives or by a
primitive one (`evidence_placed_iff`). -/

namespace ApiGraph

/-! Lists of which some items are left out. -/

/-- Items may be left out exactly if they come to nothing. -/
theorem filterMap_eq_filter_iff {α β : Type} {f : α → Option β} {q : α → Bool} {as : List α} :
    as.filterMap f = (as.filter q).filterMap f ↔ ∀ a ∈ as, q a = false → f a = none := by
  induction as with
  | nil => simp
  | cons a rest ih =>
    cases kept : q a with
    | true =>
      rw [List.filter_cons_of_pos kept]
      cases came : f a <;> simp [came, kept, ih]
    | false =>
      rw [List.filter_cons_of_neg (by simp [kept])]
      cases came : f a with
      | none => simp [came, ih]
      | some b =>
        -- With `b` in front the list is longer than any part of its rest.
        have part := ((List.filter_sublist (p := q) (l := rest)).filterMap f).length_le
        refine iff_of_false (fun same => ?_) (by simp [kept, came])
        rw [List.filterMap_cons, came] at same
        have lengths := congrArg List.length same
        simp only [List.length_cons] at lengths
        omega

/-- Nothing is in front of a part of a list if the whole is that part. -/
theorem append_eq_iff_of_sublist {α : Type} {front as bs : List α} (part : bs.Sublist as) :
    front ++ as = bs ↔ front = [] ∧ as = bs := by
  constructor
  · rintro rfl
    have lengths := part.length_le
    rw [List.length_append] at lengths
    have empty : front = [] := List.length_eq_zero_iff.mp (by omega)
    exact ⟨empty, by rw [empty, List.nil_append]⟩
  · rintro ⟨rfl, rfl⟩
    rfl

namespace Build

variable {files : FileTree} {source : Source} {definitions : Table Schema} {xs : List Effect}

/-! The list of evidence. -/

/-- The definition that a reference names, with how many of it are held. -/
def holding? (ref : String × Multiplicity) : Option (String × Multiplicity) :=
  (definitionName? ref.1).map (·, ref.2)

/-- What a property holds as evidence, in the order in which it is read. -/
def evidenceOf (p : Schema) : List (String × Multiplicity) := p.references.filterMap holding?

/-- Evidence for one definition is the first for it in the list. -/
theorem evidenceIn_eq (name : String) (p : Schema) :
    evidenceIn name p = ((evidenceOf p).find? (·.1 == name)).map (·.2) := by
  have test : (fun ref => (holding? ref).any (·.1 == name)) =
      fun ref => definitionName? ref.1 == some name := by
    funext ref
    rw [holding?]
    cases definitionName? ref.1 <;> rfl
  have first : evidenceIn name p =
      (p.references.find? fun ref => definitionName? ref.1 == some name).map (·.2) := rfl
  rw [first, evidenceOf, List.find?_filterMap, test]
  cases found : p.references.find? fun ref => definitionName? ref.1 == some name with
  | none => rfl
  | some ref =>
    have isNamed : definitionName? ref.1 = some name := by simpa using List.find?_some found
    rw [Option.bind_some, holding?, isNamed]
    rfl

/-! Placing links. -/

/-- The two rounds place the links of a description, one after the other. -/
structure PlacesLinks (source : Source) : Prop where
  alternatives : ∀ a ∈ alternatives source.definitions, a.schema.primitive = none →
    ∀ s, a.expand source s = (a.links source).foldlM (fun s l => l.place s) s
  mentions : ∀ s, placeMentions source s =
    ((mentions source.definitions).flatMap (Mention.links source)).foldlM (fun s l => l.place s) s

theorem Mention.place_eq {m : Mention} {l : Link} (link : m.link source = .ok l) (s : State) :
    m.place source s = (m.links source).foldlM (fun s l => l.place s) s := by
  rw [Mention.place, Mention.links, link]
  exact (bind_pure (l.place s)).symm

theorem placesLinks (does : effects files source = .ok xs) : PlacesLinks source where
  alternatives := by
    intro a listed notPrimitive s
    obtain ⟨m, mention⟩ := exists_mention does listed notPrimitive
    obtain ⟨l, link⟩ := Mention.exists_link does (Or.inl ⟨a, listed, notPrimitive, mention⟩)
    have alone : a.links source = m.links source := by
      rw [Alternative.links, notPrimitive, mention]
      exact List.flatMap_singleton _ _
    rw [Alternative.expand, notPrimitive, mention, alone]
    exact Mention.place_eq link s
  mentions := by
    have linked : ∀ m ∈ mentions source.definitions, ∃ l, m.link source = .ok l :=
      fun m member => Mention.exists_link does (Or.inr member)
    intro s
    rw [foldlM_flatMap, placeMentions]
    generalize mentions source.definitions = ms at linked
    induction ms generalizing s with
    | nil => rfl
    | cons m rest ih =>
      obtain ⟨l, link⟩ := linked m List.mem_cons_self
      rw [List.foldlM_cons, List.foldlM_cons, Mention.place_eq link]
      congr 1
      funext s
      exact ih s fun m member => linked m (List.mem_cons_of_mem _ member)

/-! The links on a property. -/

/-- The links on a property, in the order in which they are placed. -/
def linksOn (source : Source) (name property : String) : List Link :=
  (links source).filter fun l => l.source = name ∧ l.site.origin = some property

/-- What a link says that its source holds. -/
def Link.holding (l : Link) : String × Multiplicity := (l.target, l.forward)

theorem Mention.source_of_mem_links {m : Mention} {l : Link} (member : l ∈ m.links source) :
    l.source = m.source ∧ l.site = m.site := by
  obtain ⟨isSource, isSite, _⟩ := Mention.link_eq_ok.mp (Mention.mem_links.mp member)
  exact ⟨isSource, isSite⟩

theorem Alternative.source_of_mem_links {a : Alternative} {l : Link} (member : l ∈ a.links source) :
    l.source = a.source ∧ l.site = a.site := by
  obtain ⟨_, m, mention, link⟩ := Alternative.mem_links.mp member
  obtain ⟨isSource, isSite, _⟩ := Mention.link_eq_ok.mp link
  obtain ⟨_, _, rfl⟩ := Option.map_eq_some_iff.mp mention
  exact ⟨isSource, isSite⟩

/-- A round over the definitions that does something for each of them and then for each of its
properties does for one property what it does there. -/
theorem filter_round {α : Type} (sourceOf : α → String) (originOf : α → Option String)
    (own : String → Schema → List α) (on : String → String → Schema → List α)
    (ofOwn : ∀ name schema, ∀ a ∈ own name schema, sourceOf a = name ∧ originOf a = none)
    (ofOn : ∀ name property p, ∀ a ∈ on name property p,
      sourceOf a = name ∧ originOf a = some property)
    (unique : definitions.keys.Nodup) {name property : String} {schema p : Schema}
    (defined : (name, schema) ∈ definitions) (properties : (Table.keys schema.properties).Nodup)
    (isProperty : (property, p) ∈ schema.properties) :
    ((definitions.flatMap fun d =>
        own d.1 d.2 ++ d.2.properties.flatMap fun q => on d.1 q.1 q.2).filter fun a =>
      sourceOf a = name ∧ originOf a = some property) = on name property p := by
  have none : (own name schema).filter
      (fun a => sourceOf a = name ∧ originOf a = some property) = [] := by
    rw [List.filter_eq_nil_iff]
    intro a member
    simp [(ofOwn name schema a member).2]
  have all : (on name property p).filter
      (fun a => sourceOf a = name ∧ originOf a = some property) = on name property p := by
    rw [List.filter_eq_self]
    intro a member
    simp [ofOn name property p a member]
  rw [Table.filter_flatMap_at unique defined, List.filter_append,
    Table.filter_flatMap_at properties isProperty, none, all, List.nil_append]
  · intro q _ a member belongs
    have isOrigin := (ofOn name q.1 q.2 a member).2
    simp only [Bool.decide_and, Bool.and_eq_true, decide_eq_true_eq] at belongs
    rw [belongs.2] at isOrigin
    exact (Option.some.inj isOrigin).symm
  · intro d _ a member belongs
    simp only [Bool.decide_and, Bool.and_eq_true, decide_eq_true_eq] at belongs
    rcases List.mem_append.mp member with isOwn | isOn
    · rw [← belongs.1, (ofOwn d.1 d.2 a isOwn).1]
    · obtain ⟨q, _, isOn⟩ := List.mem_flatMap.mp isOn
      rw [← belongs.1, (ofOn d.1 q.1 q.2 a isOn).1]

/-- Links stand where what they come from stands. -/
theorem filter_links {α : Type} {sourceOf : α → String} {originOf : α → Option String}
    {placed : α → List Link}
    (stands : ∀ a, ∀ l ∈ placed a, l.source = sourceOf a ∧ l.site.origin = originOf a)
    (as : List α) (name property : String) :
    ((as.flatMap placed).filter fun l => l.source = name ∧ l.site.origin = some property) =
      (as.filter fun a => sourceOf a = name ∧ originOf a = some property).flatMap placed := by
  induction as with
  | nil => rfl
  | cons a rest ih =>
    rw [List.flatMap_cons, List.filter_append, ih, List.filter_cons]
    by_cases here : sourceOf a = name ∧ originOf a = some property
    · have all : (placed a).filter
          (fun l => l.source = name ∧ l.site.origin = some property) = placed a := by
        rw [List.filter_eq_self]
        intro l member
        simp [stands a l member, here]
      rw [all, if_pos (by simpa using here), List.flatMap_cons]
    · have none : (placed a).filter
          (fun l => l.source = name ∧ l.site.origin = some property) = [] := by
        rw [List.filter_eq_nil_iff]
        intro l member
        simpa [stands a l member] using here
      rw [none, if_neg (by simpa using here), List.nil_append]

section

variable {name property : String} {schema p : Schema}

theorem alternatives_on (unique : definitions.keys.Nodup) (defined : (name, schema) ∈ definitions)
    (properties : (Table.keys schema.properties).Nodup)
    (isProperty : (property, p) ∈ schema.properties) :
    ((alternatives definitions).filter fun a => a.source = name ∧ a.property = some property) =
      p.oneOf.map (⟨name, some property, ·⟩) := by
  refine filter_round Alternative.source Alternative.property
    (fun name schema => schema.oneOf.map (⟨name, none, ·⟩))
    (fun name property p => p.oneOf.map (⟨name, some property, ·⟩)) ?_ ?_ unique defined properties
    isProperty
  · simp
  · simp

theorem mentions_on (unique : definitions.keys.Nodup) (defined : (name, schema) ∈ definitions)
    (properties : (Table.keys schema.properties).Nodup)
    (isProperty : (property, p) ∈ schema.properties) :
    ((mentions definitions).filter fun m => m.source = name ∧ m.site.origin = some property) =
      Mention.ofProperty name property p := by
  refine filter_round Mention.source (·.site.origin) Mention.ofItems Mention.ofProperty ?_ ?_ unique
    defined properties isProperty
  · intro name schema m member
    obtain ⟨_, _, _, rfl⟩ := Mention.mem_ofItems.mp member
    exact ⟨rfl, rfl⟩
  · intro name property p m member
    obtain ⟨_, _, _, _, rfl⟩ := Mention.mem_ofProperty.mp member
    exact ⟨rfl, rfl⟩

/-- The links on a property are those of its alternatives, and then its own. -/
theorem linksOn_eq (unique : source.definitions.keys.Nodup)
    (defined : (name, schema) ∈ source.definitions)
    (properties : (Table.keys schema.properties).Nodup)
    (isProperty : (property, p) ∈ schema.properties) :
    linksOn source name property =
      (p.oneOf.map (⟨name, some property, ·⟩)).flatMap (Alternative.links source) ++
        (Mention.ofProperty name property p).flatMap (Mention.links source) := by
  have ofAlternative (a : Alternative) : ∀ l ∈ a.links source,
      l.source = a.source ∧ l.site.origin = a.property := by
    intro l member
    obtain ⟨isSource, isSite⟩ := Alternative.source_of_mem_links member
    exact ⟨isSource, by rw [isSite]; rfl⟩
  have ofMention (m : Mention) : ∀ l ∈ m.links source,
      l.source = m.source ∧ l.site.origin = m.site.origin := by
    intro l member
    obtain ⟨isSource, isSite⟩ := Mention.source_of_mem_links member
    exact ⟨isSource, by rw [isSite]⟩
  rw [linksOn, links, List.filter_append, filter_links ofAlternative, filter_links ofMention,
    alternatives_on unique defined properties isProperty,
    mentions_on unique defined properties isProperty]

end

/-- What is placed has the link that its reference asks for, if the build succeeds. -/
theorem holding_of_placed (does : effects files source = .ok xs) {m : Mention}
    (isPlaced : IsPlaced source.definitions m) :
    (m.links source).map Link.holding = (holding? (m.ref, m.forward)).toList := by
  obtain ⟨l, link⟩ := Mention.exists_link does isPlaced
  obtain ⟨_, _, isForward, isNamed, _⟩ := Mention.link_eq_ok.mp link
  rw [Mention.links, link, holding?, isNamed, ← isForward]
  rfl

theorem holding_of_alternative (does : effects files source = .ok xs) {a : Alternative}
    (listed : a ∈ alternatives source.definitions) : (a.links source).map Link.holding =
      ((if a.schema.primitive.isNone then a.schema.refTarget else none).bind holding?).toList := by
  rw [Alternative.links]
  cases primitive : a.schema.primitive with
  | some _ => rfl
  | none =>
    cases target : a.schema.refTarget with
    | none => simp [Alternative.mention?, target]
    | some ref =>
      have mention : a.mention? = some ⟨a.source, a.site, ref.1, ref.2⟩ := by
        rw [Alternative.mention?, target]
        rfl
      have placed := holding_of_placed does (Or.inl ⟨a, listed, primitive, mention⟩)
      simpa [mention] using placed

theorem holding_of_alternatives (does : effects files source = .ok xs) {as : List Alternative}
    (listed : ∀ a ∈ as, a ∈ alternatives source.definitions) :
    (as.flatMap (Alternative.links source)).map Link.holding =
      (((as.map (·.schema)).filter (·.primitive.isNone)).filterMap (·.refTarget)).filterMap
        holding? := by
  rw [List.map_flatMap,
    List.flatMap_congr fun a member => holding_of_alternative does (listed a member),
    ← List.filterMap_eq_flatMap_toList, List.filterMap_filter, List.filterMap_map,
    List.filterMap_filterMap]
  rfl

theorem holding_of_mentions (does : effects files source = .ok xs) {ms : List Mention}
    (listed : ∀ m ∈ ms, m ∈ mentions source.definitions) :
    (ms.flatMap (Mention.links source)).map Link.holding =
      (ms.map fun m => (m.ref, m.forward)).filterMap holding? := by
  rw [List.map_flatMap,
    List.flatMap_congr fun m member => holding_of_placed does (Or.inr (listed m member)),
    ← List.filterMap_eq_flatMap_toList, List.filterMap_map]
  rfl

/-- What is placed on a property is what the references name that are placed. -/
theorem holding_linksOn (unique : source.definitions.keys.Nodup)
    (does : effects files source = .ok xs) {name property : String} {schema p : Schema}
    (defined : (name, schema) ∈ source.definitions)
    (properties : (Table.keys schema.properties).Nodup)
    (isProperty : (property, p) ∈ schema.properties) :
    (linksOn source name property).map Link.holding = (placedRefs p).filterMap holding? := by
  have choices : ∀ a ∈ p.oneOf.map (⟨name, some property, ·⟩),
      a ∈ alternatives source.definitions := by
    rw [← alternatives_on unique defined properties isProperty]
    exact fun a member => (List.mem_filter.mp member).1
  have own : ∀ m ∈ Mention.ofProperty name property p, m ∈ mentions source.definitions := by
    rw [← mentions_on unique defined properties isProperty]
    exact fun m member => (List.mem_filter.mp member).1
  have schemas : (p.oneOf.map (Alternative.mk name (some property))).map (·.schema) = p.oneOf := by
    rw [List.map_map]
    exact List.map_id _
  rw [linksOn_eq unique defined properties isProperty, List.map_append,
    holding_of_alternatives does choices, holding_of_mentions does own, schemas, placedRefs,
    Mention.ofProperty]
  by_cases plain : p.oneOf = []
  · rw [plain]
    cases p.refTarget <;> rfl
  · have nothing : p.oneOf.isEmpty = false := by simpa using plain
    rw [nothing, if_neg Bool.false_ne_true, if_neg Bool.false_ne_true]
    exact List.append_nil _

/-- Every placed reference counts as evidence. -/
theorem placedRefs_sublist (p : Schema) : (placedRefs p).Sublist p.references := by
  rw [placedRefs, Schema.references]
  split
  · exact List.sublist_append_left _ _
  · exact ((List.filter_sublist).filterMap _).trans (List.sublist_append_right _ _)

/-- The references of a property name what is placed for it exactly if no definition is named beside
the alternatives, or by a primitive one. -/
theorem evidenceOf_eq_iff (p : Schema) : evidenceOf p = (placedRefs p).filterMap holding? ↔
    (p.oneOf ≠ [] → p.refTarget.bind holding? = none) ∧
      ∀ a ∈ p.oneOf, a.primitive.isSome → a.refTarget.bind holding? = none := by
  rw [evidenceOf, placedRefs, Schema.references]
  by_cases plain : p.oneOf = []
  · simp [plain]
  · have nothing : p.oneOf.isEmpty = false := by simpa using plain
    rw [nothing, if_neg Bool.false_ne_true, List.filterMap_append, List.filterMap_filterMap,
      List.filterMap_filterMap, append_eq_iff_of_sublist (List.filter_sublist.filterMap _),
      filterMap_eq_filter_iff]
    refine and_congr ?_ ?_
    · cases p.refTarget <;> simp [plain]
    · simp only [Option.isNone_eq_false_iff]

/-- In a document that builds, the evidence on a property is what is placed for it, in the same
order, exactly if it names no definition beside its alternatives or by a primitive one. Otherwise
there is evidence for links that are not placed; no link is without evidence. -/
theorem evidence_placed_iff {d : Description} {options : Options} {g : Graph}
    (built : graph files d options = .ok g) (isSource : Source.of d options = .ok source)
    (unique : source.definitions.keys.Nodup) {name property : String} {schema p : Schema}
    (defined : (name, schema) ∈ source.definitions)
    (isProperty : (property, p) ∈ schema.properties) :
    PlacesLinks source ∧
    (∀ target, evidenceIn target p = ((evidenceOf p).find? (·.1 == target)).map (·.2)) ∧
    ((linksOn source name property).map Link.holding).Sublist (evidenceOf p) ∧
    (evidenceOf p = (linksOn source name property).map Link.holding ↔
      (p.oneOf ≠ [] → p.refTarget.bind holding? = none) ∧
        ∀ a ∈ p.oneOf, a.primitive.isSome → a.refTarget.bind holding? = none) := by
  obtain ⟨definitions, read, ⟨⟩⟩ := bind_eq_ok.mp isSource
  obtain ⟨xs, made⟩ := @exists_made files _ _ _ _ built read unique
  obtain ⟨_, _, isSchema⟩ := Description.exists_node read defined
  rw [holding_linksOn unique made.does defined (Schema.keys_properties_nodup isSchema) isProperty]
  exact ⟨placesLinks made.does, fun target => evidenceIn_eq target p,
    (placedRefs_sublist p).filterMap holding?, evidenceOf_eq_iff p⟩

private def reference (name : String) : Json :=
  .object [("$ref", .string ("#/components/schemas/" ++ name))]

private def referring (name : String) : Schema :=
  { ref := some ("#/components/schemas/" ++ name) }

/-- A parcel that holds an item, several gifts or a text. -/
def parcels : Description where
  document := .object [("openapi", .string "3.0.0"), ("components", .object [("schemas", .object [
    ("Parcel", .object [("properties", .object [("content", .object [("oneOf", .array [
      reference "Item", .object [("type", .string "array"), ("items", reference "Gift")],
      .object [("type", .string "string")]])])])]),
    ("Item", .object [("properties", .object [("parcel", reference "Parcel")])]),
    ("Gift", .object [("properties", .object [("parcel", reference "Parcel")])])])])]

def parcelContent : Schema where
  oneOf := [referring "Item", { type := some "array", items := some (referring "Gift") },
    { type := some "string" }]

def parcelSchemas : Table Schema :=
  [("Parcel", { properties := [("content", parcelContent)] }),
    ("Item", { properties := [("parcel", referring "Parcel")] }),
    ("Gift", { properties := [("parcel", referring "Parcel")] })]

/-- The content of a parcel is an item or some gifts, and both are placed as the evidence says. -/
theorem parcels_evidence_placed : ∃ g schema, graph {} parcels {} = .ok g ∧
    Source.of parcels {} = .ok ⟨parcels, parcelSchemas, {}⟩ ∧ parcelSchemas.keys.Nodup ∧
    ("Parcel", schema) ∈ parcelSchemas ∧ ("content", parcelContent) ∈ schema.properties ∧
    evidenceOf parcelContent =
      (linksOn ⟨parcels, parcelSchemas, {}⟩ "Parcel" "content").map Link.holding ∧
    evidenceOf parcelContent = [("Item", .one), ("Gift", .many)] := by
  have run : (graph {} parcels {}).toOption.map (fun g => g.entities.keys) =
      some ["Parcel", "Item", "Gift"] := by
    decide +kernel
  obtain ⟨g, built, _⟩ := exists_ok_of_map run
  have isSource : Source.of parcels {} = .ok ⟨parcels, parcelSchemas, {}⟩ := rfl
  have unique : parcelSchemas.keys.Nodup := by decide
  have defined : ("Parcel", { properties := [("content", parcelContent)] }) ∈ parcelSchemas :=
    List.mem_cons_self
  have isProperty := List.mem_singleton_self ("content", parcelContent)
  have same := (evidence_placed_iff built isSource unique defined isProperty).2.2.2.mpr
    ⟨fun _ => rfl, by decide⟩
  exact ⟨g, _, built, isSource, unique, defined, isProperty, same, by decide⟩

/-- Orders with a list of lines beside an alternative, and lines with their order. -/
def receipts : Description where
  document := .object [("openapi", .string "3.0.0"), ("components", .object [("schemas", .object [
    ("Order", .object [("properties", .object [("lines", .object [("type", .string "array"),
      ("items", reference "Line"), ("oneOf", .array [.object [("type", .string "string")]])])])]),
    ("Line", .object [("properties", .object [("order", reference "Order")])])])])]

def receiptLines : Schema where
  type := some "array"
  items := some (referring "Line")
  oneOf := [{ type := some "string" }]

def receiptSchemas : Table Schema :=
  [("Order", { properties := [("lines", receiptLines)] }),
    ("Line", { properties := [("order", referring "Order")] })]

/-- The list of lines counts as evidence and is not placed. So the order of a line is taken to be
covered, and there is no relationship between the two. -/
theorem receipts_evidence_not_placed : ∃ g schema, graph {} receipts {} = .ok g ∧
    Source.of receipts {} = .ok ⟨receipts, receiptSchemas, {}⟩ ∧
    ("Order", schema) ∈ receiptSchemas ∧
    ("lines", receiptLines) ∈ schema.properties ∧ evidenceOf receiptLines = [("Line", .many)] ∧
    (linksOn ⟨receipts, receiptSchemas, {}⟩ "Order" "lines").map Link.holding = [] ∧
    g.relationships = [] := by
  have run : (graph {} receipts {}).toOption.map (fun g => g.relationships) = some [] := by
    decide +kernel
  obtain ⟨g, built, nothing⟩ := exists_ok_of_map run
  exact ⟨g, _, built, rfl, List.mem_cons_self, List.mem_singleton_self _, by decide,
    by decide +kernel, nothing⟩

end Build

end ApiGraph
