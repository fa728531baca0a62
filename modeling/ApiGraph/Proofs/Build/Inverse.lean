import ApiGraph.Proofs.Build.Links

/-! Links in both directions. The cardinality of a link is read off the properties of its target,
while the links back are placed from there and from the target itself. The two sides therefore have
inverse cardinalities exactly if what each target holds back is what its own link says
(`inverse_cardinality_iff`), and a many-to-one reference, which adds no relationship of its own, is
covered exactly if a link back that lasts is one-to-many (`dropped_covered_iff`). Links of a
definition that is itself an array or a choice are no evidence, and a reference beside alternatives
is evidence without a link. -/

namespace ApiGraph.Build

variable {files : FileTree} {source : Source} {definitions : Table Schema} {xs : List Effect}

/-! Inverse cardinalities. -/

/-- From the other side, what is held back is what is held. -/
theorem inverse?_ofEvidence (forward : Multiplicity) (back : Option Multiplicity) :
    (Cardinality.ofEvidence forward back).inverse? =
      back.map fun m => .ofEvidence m (some forward) := by
  cases forward <;> rcases back with _ | (_ | _) <;> rfl

/-- Two links have inverse cardinalities exactly if the target of each holds back what the other
one holds. -/
theorem inverse?_eq_iff {l l' : Link} : l.cardinality.inverse? = some l'.cardinality ↔
    l.HoldsBack (some l'.forward) ∧ l'.HoldsBack (some l.forward) := by
  obtain ⟨back, holds⟩ := exists_holdsBack l
  rw [holds.cardinality_eq, inverse?_ofEvidence, Option.map_eq_some_iff]
  constructor
  · rintro ⟨m, rfl, same⟩
    obtain ⟨rfl, holds'⟩ := (cardinality_eq_ofEvidence_iff _ _).mp same.symm
    exact ⟨holds, holds'⟩
  · rintro ⟨there, holds'⟩
    exact ⟨l'.forward, holds.unique there, holds'.cardinality_eq.symm⟩

/-! One link in each direction. -/

namespace Made

variable {g : Graph}

/-- A relationship of a graph is one that a link between its two entities adds. -/
theorem exists_link_of_relationship (made : Made files source xs g) {entry : RelationshipEntry}
    (member : entry ∈ g.relationships) :
    ∃ l ∈ between source entry.source entry.relationship.target, entry.relationship = l.added := by
  obtain ⟨e, there, isRelationship⟩ := made.exists_entity_of_relationship member
  obtain ⟨l, lasts, isSource, isName, isAdded⟩ :=
    (made.mem_relationships_iff there).mp isRelationship
  obtain ⟨before, after, split, _⟩ := lasts
  have inSource : l ∈ addedTo source l.source := by simp [split]
  have isTarget : l.target = entry.relationship.target := congrArg Relationship.target isAdded
  exact ⟨l, mem_between.mpr ⟨(mem_addedTo.mp inSource).1, isSource, isTarget⟩, isAdded.symm⟩

/-- With one link between two definitions, their relationship is what it adds. -/
theorem relationship_of_single (made : Made files source xs g) {a b : String} {l : Link}
    (single : between source a b = [l]) {entry : RelationshipEntry}
    (member : entry ∈ g.relationships) (isSource : entry.source = a)
    (isTarget : entry.relationship.target = b) : entry.relationship = l.added := by
  obtain ⟨l', isLink, added⟩ := made.exists_link_of_relationship member
  rw [isSource, isTarget, single, List.mem_singleton] at isLink
  rw [added, isLink]

/-- If all evidence is placed, the target of a link holds back what its one link back holds exactly
if that link stands on a property. -/
theorem holdsBack_iff_onProperty (made : Made files source xs g) {a b : String} (differ : a ≠ b)
    {l back : Link} (there : l ∈ between source a b) (single : between source b a = [back])
    (places : PlacesEvidence l.targetSchema a) :
    l.HoldsBack (some back.forward) ↔ back.site.origin.isSome := by
  obtain ⟨isLink, rfl, rfl⟩ := mem_between.mp there
  have isSingle : ∀ {m}, l.HoldsBack (some m) → back.forward = m ∧ back.site.origin.isSome := by
    intro m holds
    obtain ⟨back', isBack, isForward, onProperty⟩ :=
      made.exists_link_of_holdsBack isLink places holds
    rw [single, List.mem_singleton] at isBack
    subst isBack
    exact ⟨isForward, onProperty⟩
  constructor
  · intro holds
    exact (isSingle holds).2
  · intro onProperty
    obtain ⟨property, onProperty⟩ := Option.isSome_iff_exists.mp onProperty
    have isBack : back ∈ between source l.target l.source := by simp [single]
    have counts : l.Counts property := fun self => differ self.1
    obtain ⟨m, holds⟩ := made.exists_holdsBack_of_link isLink isBack onProperty counts
    rw [(isSingle holds).1]
    exact holds

end Made

/-- Two definitions with one link in each direction are related as the two links say. These have
inverse cardinalities exactly if the target of each holds back what the other one holds. If all
references that count as evidence are placed, that is so exactly if both links stand on a property
and none on its definition. -/
theorem inverse_cardinality_iff {d : Description} {options : Options} {g : Graph}
    (built : graph files d options = .ok g) (read : d.definitions = .ok definitions)
    (unique : definitions.keys.Nodup) {a b : String} (differ : a ≠ b) {l l' : Link}
    (there : between ⟨d, definitions, options⟩ a b = [l])
    (back : between ⟨d, definitions, options⟩ b a = [l']) :
    (∀ entry ∈ g.relationships,
      (entry.source = a → entry.relationship.target = b → entry.relationship = l.added) ∧
      (entry.source = b → entry.relationship.target = a → entry.relationship = l'.added)) ∧
    (l.cardinality.inverse? = some l'.cardinality ↔
      l.HoldsBack (some l'.forward) ∧ l'.HoldsBack (some l.forward)) ∧
    (PlacesEvidence l.targetSchema a → (l.HoldsBack (some l'.forward) ↔ l'.site.origin.isSome)) ∧
    (PlacesEvidence l'.targetSchema b →
      (l'.HoldsBack (some l.forward) ↔ l.site.origin.isSome)) := by
  obtain ⟨xs, made⟩ := @exists_made files _ _ _ _ built read unique
  have isThere : l ∈ between ⟨d, definitions, options⟩ a b := by simp [there]
  have isBack : l' ∈ between ⟨d, definitions, options⟩ b a := by simp [back]
  refine ⟨?_, inverse?_eq_iff, made.holdsBack_iff_onProperty differ isThere back,
    made.holdsBack_iff_onProperty differ.symm isBack there⟩
  intro entry member
  exact ⟨made.relationship_of_single there member, made.relationship_of_single back member⟩

private def holdsOne (name : String) : Json :=
  .object [("$ref", .string ("#/components/schemas/" ++ name))]

private def holdsMany (name : String) : Json :=
  .object [("type", .string "array"), ("items", holdsOne name)]

/-- Shoppers with their orders, each with its shopper as the one alternative for its buyer. -/
def shop : Description where
  document := .object [("openapi", .string "3.0.0"), ("components", .object [("schemas", .object [
    ("Shopper", .object [("properties", .object [("orders", holdsMany "Order")])]),
    ("Order", .object [("properties", .object [
      ("buyer", .object [("oneOf", .array [holdsOne "Shopper"])])])])])])]

/-- The two links of the shop stand on properties, and have inverse cardinalities. -/
theorem shop_inverse : ∃ g definitions l l', graph {} shop {} = .ok g ∧
    shop.definitions = .ok definitions ∧ definitions.keys.Nodup ∧
    between ⟨shop, definitions, {}⟩ "Shopper" "Order" = [l] ∧
    between ⟨shop, definitions, {}⟩ "Order" "Shopper" = [l'] ∧
    PlacesEvidence l.targetSchema "Shopper" ∧ PlacesEvidence l'.targetSchema "Order" ∧
    l.cardinality.inverse? = some l'.cardinality := by
  have run : (graph {} shop {}).toOption.map (fun g => g.relationships.map (·.name)) =
      some ["orders", "buyer_shopper"] := by
    decide +kernel
  have read : shop.definitions.toOption.map (fun definitions => (definitions.keys,
      (between ⟨shop, definitions, {}⟩ "Shopper" "Order").map fun l =>
        (l.site.origin, decide (PlacesEvidence l.targetSchema "Shopper")),
      (between ⟨shop, definitions, {}⟩ "Order" "Shopper").map fun l =>
        (l.site.origin, decide (PlacesEvidence l.targetSchema "Order")))) =
      some (["Shopper", "Order"], [(some "orders", true)], [(some "buyer", true)]) := by
    decide +kernel
  obtain ⟨g, built, _⟩ := exists_ok_of_map run
  obtain ⟨definitions, defined, seen⟩ := exists_ok_of_map read
  simp only [Prod.mk.injEq, List.map_eq_singleton_iff] at seen
  obtain ⟨keys, ⟨l, there, onProperty, places⟩, l', back, onProperty', places'⟩ := seen
  have unique : definitions.keys.Nodup := by
    rw [keys]
    decide
  have places := of_decide_eq_true places
  have places' := of_decide_eq_true places'
  obtain ⟨_, inverse, forth, further⟩ :=
    inverse_cardinality_iff built defined unique (by decide) there back
  refine ⟨g, definitions, l, l', built, defined, unique, there, back, places, places', ?_⟩
  exact inverse.mpr ⟨(forth places).mpr (by simp [onProperty']),
    (further places').mpr (by simp [onProperty])⟩

/-- Payments by coupon, with a coupon as the one alternative of a payment. -/
def payments : Description where
  document := .object [("openapi", .string "3.0.0"), ("components", .object [("schemas", .object [
    ("Payment", .object [("oneOf", .array [holdsOne "Coupon"])]),
    ("Coupon", .object [("properties", .object [("payment", holdsOne "Payment")])])])])]

/-- The link of a payment stands on its definition, so from the side of the coupon nothing is held
back, although the payment is one-to-one with it. -/
theorem payments_not_inverse : ∃ g definitions l l', graph {} payments {} = .ok g ∧
    payments.definitions = .ok definitions ∧
    between ⟨payments, definitions, {}⟩ "Payment" "Coupon" = [l] ∧
    between ⟨payments, definitions, {}⟩ "Coupon" "Payment" = [l'] ∧
    l.cardinality = .oneToOne ∧ l'.cardinality = .toOne ∧
    l.cardinality.inverse? ≠ some l'.cardinality := by
  have run : (graph {} payments {}).toOption.map (fun g => g.relationships.map (·.name)) =
      some ["payment_coupon", "payment"] := by
    decide +kernel
  have read : payments.definitions.toOption.map (fun definitions =>
      ((between ⟨payments, definitions, {}⟩ "Payment" "Coupon").map (·.cardinality),
        (between ⟨payments, definitions, {}⟩ "Coupon" "Payment").map (·.cardinality))) =
      some ([.oneToOne], [.toOne]) := by
    decide +kernel
  obtain ⟨g, built, _⟩ := exists_ok_of_map run
  obtain ⟨definitions, defined, seen⟩ := exists_ok_of_map read
  simp only [Prod.mk.injEq, List.map_eq_singleton_iff] at seen
  obtain ⟨⟨l, there, isOne⟩, l', back, isOne'⟩ := seen
  refine ⟨g, definitions, l, l', built, defined, there, back, isOne, isOne', ?_⟩
  rw [isOne, isOne']
  decide

/-! References without a relationship. -/

/-- A many-to-one reference of a plain property adds no relationship. The entity that it refers to
has a one-to-many relationship back exactly if there is a link back that lasts, that holds many and
whose target holds one. If all references that count as evidence are placed, there is a link back
that holds many. -/
theorem dropped_covered_iff {d : Description} {options : Options} {g : Graph}
    (built : graph files d options = .ok g) (read : d.definitions = .ok definitions)
    (unique : definitions.keys.Nodup) {l : Link} (isLink : l ∈ links ⟨d, definitions, options⟩)
    {property : String} (plain : l.site = .property property)
    (many : l.cardinality = .manyToOne) :
    l.addsRelationship = false ∧ ∃ e, g.entities.get? l.target = some e ∧
      ((∃ entry ∈ e.relationships,
          entry.2.target = l.source ∧ entry.2.cardinality = .oneToMany) ↔
        ∃ back : Link, back.Lasts ⟨d, definitions, options⟩ ∧ back.source = l.target ∧
          back.target = l.source ∧ back.forward = .many ∧ back.HoldsBack (some .one)) ∧
      (PlacesEvidence l.targetSchema l.source →
        ∃ back ∈ between ⟨d, definitions, options⟩ l.target l.source, back.forward = .many) := by
  obtain ⟨xs, made⟩ := @exists_made files _ _ _ _ built read unique
  have defined : l.target ∈ g.entities.keys := by
    rw [made.entities, keys_entities_bound]
    exact List.mem_map_of_mem (made.target_of_mem isLink)
  obtain ⟨e, there⟩ := Table.mem_keys_iff.mp defined
  have isOneToMany : ∀ back : Link, back.cardinality = .oneToMany ↔
      back.forward = .many ∧ back.HoldsBack (some .one) :=
    fun back => cardinality_eq_ofEvidence_iff .many (some .one)
  refine ⟨by simp [Link.addsRelationship, many, plain], e, there, ?_, ?_⟩
  · constructor
    · rintro ⟨⟨key, r⟩, member, isTarget, isCardinality⟩
      obtain ⟨back, lasts, isSource, rfl, rfl⟩ := (made.mem_relationships_iff there).mp member
      exact ⟨back, lasts, isSource, isTarget, (isOneToMany back).mp isCardinality⟩
    · rintro ⟨back, lasts, isSource, isTarget, holds⟩
      refine ⟨back.entry, ?_, isTarget, (isOneToMany back).mpr holds⟩
      exact (made.mem_relationships_iff there).mpr ⟨back, lasts, isSource, rfl, rfl⟩
  · intro places
    obtain ⟨_, holds⟩ :=
      (cardinality_eq_ofEvidence_iff .one (some .many)).mp many
    obtain ⟨back, isBack, isForward, _⟩ := made.exists_link_of_holdsBack isLink places holds
    exact ⟨back, isBack, isForward⟩

/-- Orders with their lines, each of which refers to its order. -/
def invoices : Description where
  document := .object [("openapi", .string "3.0.0"), ("components", .object [("schemas", .object [
    ("Order", .object [("properties", .object [("lines", holdsMany "Line")])]),
    ("Line", .object [("properties", .object [("order", holdsOne "Order")])])])])]

/-- A line adds no relationship for its order, which has its lines. -/
theorem invoices_covered : ∃ g definitions, graph {} invoices {} = .ok g ∧
    invoices.definitions = .ok definitions ∧ definitions.keys.Nodup ∧
    ∃ l ∈ links ⟨invoices, definitions, {}⟩, l.source = "Line" ∧ l.site = .property "order" ∧
      l.cardinality = .manyToOne ∧ l.addsRelationship = false ∧
      ∃ e, g.entities.get? l.target = some e ∧ (∃ entry ∈ e.relationships,
        entry.2.target = l.source ∧ entry.2.cardinality = .oneToMany) ∧
      ∃ back : Link, back.Lasts ⟨invoices, definitions, {}⟩ ∧ back.source = l.target ∧
        back.target = l.source ∧ back.forward = .many ∧ back.HoldsBack (some .one) := by
  have run : (graph {} invoices {}).toOption.map (fun g =>
      ((g.entities.get? "Order").map Entity.relationships)) =
      some (some [("lines", ⟨"Line", .oneToMany, some "order", true, none⟩)]) := by
    decide +kernel
  have read : invoices.definitions.toOption.map (fun definitions => (definitions.keys,
      (between ⟨invoices, definitions, {}⟩ "Line" "Order").map fun l =>
        (l.site, l.cardinality))) =
      some (["Order", "Line"], [(.property "order", .manyToOne)]) := by
    decide +kernel
  obtain ⟨g, built, lines⟩ := exists_ok_of_map run
  obtain ⟨definitions, defined, seen⟩ := exists_ok_of_map read
  simp only [Prod.mk.injEq, List.map_eq_singleton_iff] at seen
  obtain ⟨keys, l, single, plain, many⟩ := seen
  have unique : definitions.keys.Nodup := by
    rw [keys]
    decide
  obtain ⟨isLink, isSource, isTarget⟩ := mem_between.mp (single ▸ List.mem_singleton.mpr rfl)
  obtain ⟨dropped, e, there, covered, _⟩ :=
    dropped_covered_iff built defined unique isLink plain many
  rw [isTarget] at there
  rw [there, Option.map_some, Option.some.injEq] at lines
  have isCovered : ∃ entry ∈ e.relationships,
      entry.2.target = l.source ∧ entry.2.cardinality = .oneToMany := by
    rw [lines, isSource]
    exact ⟨_, List.mem_singleton.mpr rfl, rfl, rfl⟩
  refine ⟨g, definitions, built, defined, unique, l, isLink, isSource, plain, many, dropped, e, ?_,
    isCovered, covered.mp isCovered⟩
  rw [isTarget, there]

/-- Lines that list orders first, and then refer to their own. -/
def transfers : Description where
  document := .object [("openapi", .string "3.0.0"), ("components", .object [("schemas", .object [
    ("Line", .object [("properties", .object [("orders", holdsMany "Order"),
      ("own", holdsOne "Order")])]),
    ("Order", .object [("properties", .object [("lines", holdsMany "Line")])])])])]

/-- The lines of an order are many-to-many with it by their first property. Nothing covers the
second one, which adds no relationship. -/
theorem transfers_uncovered : ∃ g definitions l e, graph {} transfers {} = .ok g ∧
    transfers.definitions = .ok definitions ∧ l ∈ links ⟨transfers, definitions, {}⟩ ∧
    l.source = "Line" ∧ l.site = .property "own" ∧ l.cardinality = .manyToOne ∧
    l.target = "Order" ∧ l.addsRelationship = false ∧ g.entities.get? "Order" = some e ∧
    ¬ ∃ entry ∈ e.relationships, entry.2.target = "Line" ∧ entry.2.cardinality = .oneToMany := by
  have run : (graph {} transfers {}).toOption.map (fun g =>
      ((g.entities.get? "Order").map Entity.relationships)) =
      some (some [("lines", ⟨"Line", .manyToMany, none, true, some "lineorder"⟩)]) := by
    decide +kernel
  have read : transfers.definitions.toOption.map (fun definitions =>
      (between ⟨transfers, definitions, {}⟩ "Line" "Order").map fun l =>
        (l.site, l.cardinality, l.addsRelationship)) =
      some [(.property "orders", .manyToMany, true), (.property "own", .manyToOne, false)] := by
    decide +kernel
  obtain ⟨g, built, lines⟩ := exists_ok_of_map run
  obtain ⟨definitions, defined, seen⟩ := exists_ok_of_map read
  obtain ⟨e, there, lines⟩ := Option.map_eq_some_iff.mp lines
  have listed : (Site.property "own", Cardinality.manyToOne, false) ∈
      (between ⟨transfers, definitions, {}⟩ "Line" "Order").map fun l =>
        (l.site, l.cardinality, l.addsRelationship) := by
    rw [seen]
    decide
  obtain ⟨l, isBetween, isSeen⟩ := List.mem_map.mp listed
  simp only [Prod.mk.injEq] at isSeen
  obtain ⟨plain, many, dropped⟩ := isSeen
  obtain ⟨isLink, isSource, isTarget⟩ := mem_between.mp isBetween
  refine ⟨g, definitions, l, e, built, defined, isLink, isSource, plain, many, isTarget, dropped,
    there, ?_⟩
  rw [lines]
  decide

end ApiGraph.Build
