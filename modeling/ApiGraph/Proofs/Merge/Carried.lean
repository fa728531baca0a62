import ApiGraph.Proofs.Merge.Sources
import ApiGraph.Proofs.Resolver.Chain

/-! What becomes of references when sources are combined. Only the entries of some parts are taken
from the sources, each from the last one that declares it. A place of a source is carried over if
the source that its entry is taken from has a node there that refers on alike (`Carried`); an
authoring key or a property for models only takes out what lies behind it (`TakenOut`). A reference
that leads to a place in a source by places that are carried over leads there in the combined
document exactly if none of them is taken out (`combined_leadsTo_iff`). -/

namespace ApiGraph

namespace Merge

open Json.Pointer (keyOf)
open Resolver (LeadsTo Passes)

/-- The keys on the way to a part. -/
def Part.way : Part → List String
  | .paths => ["paths"]
  | .component name => ["components", name]

/-- The place of a pointer within an entry of a part. -/
structure Part.Splits (part : Part) (place : Fragment) (name : String)
    (rest : List (List Char)) : Prop where
  collected : part ∈ parts
  segments : ∃ front segment, front.map keyOf = part.way ∧ keyOf segment = name ∧
    place.segments = front ++ segment :: rest

/-- A place lies in an entry of which the last declaration has a node there, and this refers on as
the node that the given document has there does, or is no reference either. -/
def Carried (documents : List Json) (document : Json) (place : Fragment) : Prop :=
  ∃ (part : Part) (name : String) (rest : List (List Char)) (entry node : Json),
    part.Splits place name rest ∧
    part.last documents name = some entry ∧ entry.follow rest = some node ∧
    (place.lookup document).map aliasTarget? = some (aliasTarget? node)

/-- A place lies behind an authoring key, or behind a property that is for models only in the last
declaration of its schema. -/
def TakenOut (documents : List Json) (place : Fragment) : Prop :=
  (∃ key ∈ place.keys, key ∈ authoringKeys) ∨
  ∃ name rest schema, (Part.component "schemas").Splits place name rest ∧
    (Part.component "schemas").last documents name = some schema ∧
    PassesModelOnly schema (rest.map keyOf)

variable {document out : Json} {documents : List Json} {top : Table Json} {part : Part}
  {name : String} {rest : List (List Char)} {place : Fragment} {entry : Json}

theorem Part.isObject_of_value? {j : Json} (found : part.value? document = some j) :
    document.isObject = true := by
  cases document with
  | object fields => rfl
  | _ => cases part <;> cases found

/-- A path into a part of a document leads through one of its entries. -/
theorem Part.follow_eq {entries : Table Json}
    (holds : part.value? document = some (.object entries)) {front : List (List Char)}
    (onWay : front.map keyOf = part.way) (segment : List Char) (rest : List (List Char)) :
    document.follow (front ++ segment :: rest) =
      (Table.get? entries (keyOf segment)).bind (·.follow rest) := by
  obtain ⟨fields, rfl⟩ := Json.exists_of_isObject (part.isObject_of_value? holds)
  have reached : (Json.object fields).follow front = some (.object entries) := by
    cases part with
    | paths =>
      obtain ⟨first, rest, rfl, isFirst, nothing⟩ := List.map_eq_cons_iff.mp onWay
      obtain rfl := List.map_eq_nil_iff.mp nothing
      rw [Json.follow_cons, Json.step_object, ← keyOf, isFirst]
      exact Option.bind_eq_some_iff.mpr ⟨_, holds, rfl⟩
    | component title =>
      obtain ⟨first, rest, rfl, isFirst, more⟩ := List.map_eq_cons_iff.mp onWay
      obtain ⟨second, rest, rfl, isSecond, nothing⟩ := List.map_eq_cons_iff.mp more
      obtain rfl := List.map_eq_nil_iff.mp nothing
      obtain ⟨j, isComponents, isSection⟩ := Option.bind_eq_some_iff.mp holds
      obtain ⟨components, rfl⟩ : ∃ components, j = .object components := by
        cases j with
        | object components => exact ⟨components, rfl⟩
        | _ => cases isSection
      rw [Json.follow_cons, Json.step_object, ← keyOf, isFirst]
      refine Option.bind_eq_some_iff.mpr ⟨_, isComponents, ?_⟩
      rw [Json.follow_cons, Json.step_object, ← keyOf, isSecond]
      exact Option.bind_eq_some_iff.mpr ⟨_, isSection, rfl⟩
  rw [Json.follow_append, reached, Option.bind_some, Json.follow_cons, Json.step_object, ← keyOf]

theorem Part.not_authoring_of_way (collected : part ∈ parts) :
    ∀ key ∈ part.way, key ∉ authoringKeys := by
  rcases List.mem_cons.mp collected with rfl | isSection
  · decide
  · obtain ⟨name, member, rfl⟩ := List.mem_map.mp isSection
    intro key onWay
    rcases List.mem_cons.mp onWay with rfl | onWay
    · decide
    · obtain rfl := List.mem_singleton.mp onWay
      exact not_authoring member

theorem Part.Splits.keys_eq (h : part.Splits place name rest) :
    place.keys = part.way ++ name :: rest.map keyOf := by
  obtain ⟨_, front, segment, onWay, rfl, segments⟩ := h
  rw [Fragment.keys, segments, List.map_append, onWay, List.map_cons]

/-- A place lies in one entry of one part at most. -/
theorem Part.Splits.unique (h : part.Splits place name rest) {part' : Part} {name' : String}
    {rest' : List (List Char)} (h' : part'.Splits place name' rest') :
    part = part' ∧ name = name' ∧ rest = rest' := by
  have keys := h.keys_eq.symm.trans h'.keys_eq
  obtain ⟨_, front, segment, onWay, rfl, segments⟩ := h
  obtain ⟨_, front', segment', onWay', rfl, segments'⟩ := h'
  have same : part = part' := by
    cases part with
    | paths =>
      cases part' with
      | paths => rfl
      | component => simp [Part.way] at keys
    | component title =>
      cases part' with
      | paths => simp [Part.way] at keys
      | component title' =>
        simp only [Part.way, List.cons_append, List.cons.injEq, true_and] at keys
        rw [keys.1]
  subst same
  have lengths : front.length = front'.length := by
    rw [← List.length_map keyOf, onWay, ← onWay', List.length_map]
  obtain ⟨_, tails⟩ := List.append_inj (segments.symm.trans segments') lengths
  obtain ⟨rfl, rfl⟩ := List.cons.inj tails
  exact ⟨rfl, rfl, rfl⟩

/-- What stands in the combined document at a place in an entry. -/
theorem Rebuilt.lookup_eq (h : Rebuilt top documents out)
    (unrepeated : ∀ d ∈ documents, d.Unrepeated) (written : place.Written)
    (splits : part.Splits place name rest) (last : part.last documents name = some entry) :
    place.lookup out = if name ∈ authoringKeys then none
      else (stripAuthoringKeys (part.trimmed entry)).follow rest := by
  obtain ⟨collected, front, segment, onWay, rfl, segments⟩ := splits
  obtain ⟨entries, holds⟩ := h.isObject part collected
  have found := h.get?_entries unrepeated collected (keyOf segment)
  rw [Part.entries, holds, Option.bind_some, Json.fields?, Option.getD_some, last] at found
  rw [Fragment.lookup_eq_follow written (part.isObject_of_value? holds), segments,
    part.follow_eq holds onWay, found]
  by_cases authoring : keyOf segment ∈ authoringKeys
  · rw [if_pos authoring, if_pos authoring]
    rfl
  · rw [if_neg authoring, if_neg authoring]
    rfl

/-- What takes a place in an entry out. -/
theorem Part.Splits.takenOut_iff (splits : part.Splits place name rest)
    (last : part.last documents name = some entry) :
    TakenOut documents place ↔ name ∈ authoringKeys ∨
      (∃ key ∈ rest.map keyOf, key ∈ authoringKeys) ∨
      part = .component "schemas" ∧ PassesModelOnly entry (rest.map keyOf) := by
  rw [TakenOut, splits.keys_eq, ← or_assoc]
  apply or_congr
  · constructor
    · rintro ⟨key, member, authoring⟩
      rcases List.mem_append.mp member with before | after
      · exact absurd authoring (part.not_authoring_of_way splits.collected key before)
      · rcases List.mem_cons.mp after with rfl | after
        · exact Or.inl authoring
        · exact Or.inr ⟨key, after, authoring⟩
    · rintro (authoring | ⟨key, member, authoring⟩)
      · exact ⟨_, by simp, authoring⟩
      · exact ⟨key, List.mem_append_right _ (List.mem_cons_of_mem _ member), authoring⟩
  · constructor
    · rintro ⟨name', rest', schema, splits', last', passes⟩
      obtain ⟨rfl, rfl, rfl⟩ := splits.unique splits'
      rw [last] at last'
      cases last'
      exact ⟨rfl, passes⟩
    · rintro ⟨rfl, passes⟩
      exact ⟨name, rest, entry, splits, last, passes⟩

section

variable (h : Rebuilt top documents out) (unrepeated : ∀ d ∈ documents, d.Unrepeated)

include h unrepeated

/-- What is taken out is gone. -/
theorem Rebuilt.lookup_eq_none (written : place.Written)
    (carried : Carried documents document place)
    (gone : TakenOut documents place) : place.lookup out = none := by
  obtain ⟨part, name, rest, entry, node, splits, last, _, _⟩ := carried
  rw [h.lookup_eq unrepeated written splits last, follow_stripAuthoringKeys]
  rcases (splits.takenOut_iff last).mp gone with authoring | authoring | ⟨rfl, passes⟩
  · rw [if_pos authoring]
  · rw [if_pos authoring, ite_self]
  · have nothing := follow_withoutModelOnly_eq_none (Part.unrepeated_of_last unrepeated last) passes
    have trimmed : (Part.component "schemas").trimmed entry = withoutModelOnly entry := rfl
    rw [trimmed, nothing]
    simp

/-- What is carried over and not taken out is there, and refers on as before. -/
theorem Rebuilt.exists_lookup (written : place.Written) (carried : Carried documents document place)
    (kept : ¬ TakenOut documents place) : ∃ node', place.lookup out = some node' ∧
      (place.lookup document).map aliasTarget? = some (aliasTarget? node') := by
  obtain ⟨part, name, rest, entry, node, splits, last, found, same⟩ := carried
  rw [splits.takenOut_iff last, not_or, not_or] at kept
  obtain ⟨notName, notBelow, notModel⟩ := kept
  have trimmed : ∃ node', (part.trimmed entry).follow rest = some node' ∧
      aliasTarget? node' = aliasTarget? node := by
    by_cases isSchema : part = .component "schemas"
    · subst isSchema
      exact exists_follow_withoutModelOnly (Part.unrepeated_of_last unrepeated last) found
        fun passes => notModel ⟨rfl, passes⟩
    · rw [part.trimmed_eq isSchema]
      exact ⟨node, found, rfl⟩
  obtain ⟨node', there, target⟩ := trimmed
  refine ⟨stripAuthoringKeys node', ?_, ?_⟩
  · rw [h.lookup_eq unrepeated written splits last, if_neg notName, follow_stripAuthoringKeys,
      if_neg notBelow, there]
    rfl
  · rw [aliasTarget?_stripAuthoringKeys, target, same]

variable {raw : String} {node : Json} {places : List Fragment}

/-- A reference is followed from place to place as before. -/
theorem Rebuilt.exists_passes (way : Passes document raw places node)
    (carried : ∀ place ∈ places, Carried documents document place)
    (kept : ∀ place ∈ places, ¬ TakenOut documents place) :
    ∃ node', Passes out raw places node' := by
  have written := way.written
  induction way with
  | last read found ended =>
    rw [List.forall_mem_singleton] at carried kept written
    obtain ⟨node', there, same⟩ := h.exists_lookup unrepeated written carried kept
    rw [found, Option.map_some, ended] at same
    exact ⟨node', .last read there (Option.some.inj same).symm⟩
  | next read found leads _ ih =>
    rw [List.forall_mem_cons] at carried kept written
    obtain ⟨via', there, same⟩ := h.exists_lookup unrepeated written.1 carried.1 kept.1
    rw [found, Option.map_some, leads] at same
    obtain ⟨node', rest⟩ := ih carried.2 kept.2 written.2
    exact ⟨node', .next read there (Option.some.inj same).symm rest⟩

theorem Rebuilt.not_takenOut_of_passes (way : Passes document raw places node)
    (carried : ∀ place ∈ places, Carried documents document place) {places' : List Fragment}
    {node' : Json} (way' : Passes out raw places' node') :
    ∀ place ∈ places, ¬ TakenOut documents place := by
  have written := way.written
  induction way generalizing places' with
  | last read found ended =>
    rw [List.forall_mem_singleton] at carried written ⊢
    intro gone
    obtain ⟨via, there⟩ := way'.first_found read
    rw [h.lookup_eq_none unrepeated written carried gone] at there
    cases there
  | @next raw next place later via node read found leads _ ih =>
    rw [List.forall_mem_cons] at carried written ⊢
    obtain ⟨first, there⟩ := way'.first_found read
    have kept : ¬ TakenOut documents place := by
      intro gone
      rw [h.lookup_eq_none unrepeated written.1 carried.1 gone] at there
      cases there
    obtain ⟨via', there', same⟩ := h.exists_lookup unrepeated written.1 carried.1 kept
    rw [found, Option.map_some, leads] at same
    obtain ⟨_, rest⟩ := way'.rest_of_alias read there' (Option.some.inj same).symm
    exact ⟨kept, ih carried.2 rest written.2⟩

end

end Merge

open Merge (Carried Part TakenOut)
open Resolver (LeadsTo Passes)

/-- A reference that leads to a place in a merged source by places that are carried over leads there
in the combined document exactly if none of them is taken out, and nowhere else. -/
theorem combined_leadsTo_iff {files : FileTree} {master : Path} {sources : List Path} {out : Json}
    (combined : combine files master sources = .ok out) :
    ∃ merged, sources.mapM (mergeFile files) = .ok merged ∧
      ∀ m ∈ merged, ∀ raw place node, LeadsTo m.document raw place node →
        ∃ places, Passes m.document raw places node ∧ places.getLast? = some place ∧
          ((∀ p ∈ places, Carried (merged.map (·.document)) m.document p) →
            ((∃ node', LeadsTo out raw place node') ↔
              ∀ p ∈ places, ¬ TakenOut (merged.map (·.document)) p) ∧
            ∀ place' node', LeadsTo out raw place' node' → place' = place) := by
  obtain ⟨top, merged, _, each, made⟩ := combine_eq_ok_iff.mp combined
  have unrepeated := unrepeated_of_each each
  have rebuilt : Merge.Rebuilt top (merged.map (·.document)) out := by
    rw [made]
    exact Merge.rebuilt_of_unrepeated top unrepeated
  refine ⟨merged, each, fun m member raw place node leads => ?_⟩
  obtain ⟨places, way, last⟩ := Resolver.leadsTo_iff_passes.mp leads
  refine ⟨places, way, last, fun carried => ?_⟩
  have kept_of_leads : ∀ place' node', LeadsTo out raw place' node' →
      ∀ p ∈ places, ¬ TakenOut (merged.map (·.document)) p := by
    intro place' node' leads'
    obtain ⟨places', way', _⟩ := Resolver.leadsTo_iff_passes.mp leads'
    exact rebuilt.not_takenOut_of_passes unrepeated way carried way'
  have leads_of_kept := rebuilt.exists_passes unrepeated way carried
  constructor
  · constructor
    · rintro ⟨node', leads'⟩
      exact kept_of_leads place node' leads'
    · intro kept
      obtain ⟨node', way'⟩ := leads_of_kept kept
      exact ⟨node', Resolver.leadsTo_iff_passes.mpr ⟨places, way', last⟩⟩
  · intro place' node' leads'
    obtain ⟨places', way', last'⟩ := Resolver.leadsTo_iff_passes.mp leads'
    obtain ⟨node'', way''⟩ := leads_of_kept (kept_of_leads place' node' leads')
    obtain ⟨rfl, _⟩ := way'.unique way''
    exact Option.some.inj (last'.symm.trans last)

/-- A source with a definition that no part holds, and a schema with a property for models only. -/
def kennelFiles : FileTree where
  entries := [(["master.yaml"], .file "openapi: 3.0.0\n"),
    (["pets.yaml"], .file ("paths:\n  /pets:\n    schema:\n      $ref: '#/definitions/Pet'\n" ++
      "definitions:\n  Pet:\n    type: object\ncomponents:\n  schemas:\n    Pet:\n" ++
      "      properties:\n        tag:\n          x-db:\n            model_only: true\n"))]

/-- The tag of a pet. -/
def kennelTag : Json := .object [("x-db", .object [("model_only", .bool true)])]

def kennelPet : Json := .object [("properties", .object [("tag", kennelTag)])]

/-- The source, which is merged as it is. -/
def kennelDocument : Json := .object
  [("paths", .object [("/pets", .object
      [("schema", .object [("$ref", .string "#/definitions/Pet")])])]),
    ("definitions", .object [("Pet", .object [("type", .string "object")])]),
    ("components", .object [("schemas", .object [("Pet", kennelPet)])])]

theorem kennel_merges : (([⟨"/pets.yaml"⟩] : List Path).mapM (mergeFile kennelFiles)).toOption.map
    (fun merged => merged.map (·.document)) = some [kennelDocument] := by
  decide +kernel

theorem kennel_combines : (combine kennelFiles ⟨"/master.yaml"⟩ [⟨"/pets.yaml"⟩]).toOption.map
    (fun out => (Table.get? (Part.paths.entries out) "/pets",
      (Resolver.alone out "#/definitions/Pet").toOption.map fun t => aliasTarget? t.node)) =
    some (some (.object [("schema", .object [("$ref", .string "#/definitions/Pet")])]), none) := by
  decide +kernel

/-- The places of the pet and of its tag. -/
def kennelPlaces : Fragment × Fragment :=
  (.pointer "/components/schemas/Pet", .pointer "/components/schemas/Pet/properties/tag")

theorem kennelPet_splits : (Part.component "schemas").Splits kennelPlaces.1 "Pet" [] where
  collected := by decide
  segments := ⟨["components".toList, "schemas".toList], "Pet".toList, by decide, by decide,
    by decide⟩

theorem kennelTag_splits : (Part.component "schemas").Splits kennelPlaces.2 "Pet"
    ["properties".toList, "tag".toList] where
  collected := by decide
  segments := ⟨["components".toList, "schemas".toList], "Pet".toList, by decide, by decide,
    by decide⟩

/-- The reference to the pet leads to it as before, and the one to its tag leads nowhere. -/
theorem kennel_leadsTo : ∃ out, combine kennelFiles ⟨"/master.yaml"⟩ [⟨"/pets.yaml"⟩] = .ok out ∧
    (∃ node, LeadsTo out "#/components/schemas/Pet" kennelPlaces.1 node) ∧
    ¬ ∃ node, LeadsTo out "#/components/schemas/Pet/properties/tag" kennelPlaces.2 node := by
  obtain ⟨out, combined, _⟩ := exists_ok_of_map kennel_combines
  obtain ⟨merged, each, documents⟩ := exists_ok_of_map kennel_merges
  obtain ⟨merged', each', law⟩ := combined_leadsTo_iff combined
  rw [each] at each'
  cases each'
  obtain ⟨m, rfl, isDocument⟩ := List.map_eq_singleton_iff.mp documents
  simp only [List.map_singleton, isDocument, List.mem_singleton, forall_eq] at law
  have last : (Part.component "schemas").last [kennelDocument] "Pet" = some kennelPet := by decide
  have petWay : Passes kennelDocument "#/components/schemas/Pet" [kennelPlaces.1] kennelPet :=
    .last (by decide +kernel) (by decide +kernel) (by decide)
  have tagWay : Passes kennelDocument "#/components/schemas/Pet/properties/tag" [kennelPlaces.2]
      kennelTag := .last (by decide +kernel) (by decide +kernel) (by decide)
  have petLeads := Resolver.leadsTo_iff_passes.mpr ⟨_, petWay, rfl⟩
  have tagLeads := Resolver.leadsTo_iff_passes.mpr ⟨_, tagWay, rfl⟩
  obtain ⟨places, way, _, pet⟩ := law _ _ _ petLeads
  obtain ⟨rfl, _⟩ := way.unique petWay
  obtain ⟨places', way', _, tag⟩ := law _ _ _ tagLeads
  obtain ⟨rfl, _⟩ := way'.unique tagWay
  simp only [List.forall_mem_singleton] at pet tag
  refine ⟨out, combined, (pet ?_).1.mpr ?_, fun leads => (tag ?_).1.mp leads ?_⟩
  · exact ⟨_, _, _, _, _, kennelPet_splits, last, rfl, by decide +kernel⟩
  · rw [kennelPet_splits.takenOut_iff last]
    rintro (authoring | ⟨key, member, _⟩ | ⟨_, name, later, property, keys, _⟩)
    · exact absurd authoring (by decide)
    · cases member
    · cases keys
  · exact ⟨_, _, _, _, kennelTag, kennelTag_splits, last, by decide, by decide +kernel⟩
  · rw [kennelTag_splits.takenOut_iff last]
    exact Or.inr (Or.inr ⟨rfl, "tag", [], kennelTag, by decide, by decide, by decide⟩)

/-- The reference to the definition leads nowhere in the combined document. -/
theorem kennel_dangles : ∃ m out entry, mergeFile kennelFiles ⟨"/pets.yaml"⟩ = .ok m ∧
    combine kennelFiles ⟨"/master.yaml"⟩ [⟨"/pets.yaml"⟩] = .ok out ∧
    Table.get? (Part.paths.entries m.document) "/pets" = some entry ∧
    Table.get? (Part.paths.entries out) "/pets" = some entry ∧
    "#/definitions/Pet" ∈ entry.refs ∧
    (∃ place node, LeadsTo m.document "#/definitions/Pet" place node) ∧
    ¬ ∃ place node, LeadsTo out "#/definitions/Pet" place node := by
  obtain ⟨merged, each, documents⟩ := exists_ok_of_map kennel_merges
  obtain ⟨m, rfl, isDocument⟩ := List.map_eq_singleton_iff.mp documents
  obtain ⟨_, isSource, merges⟩ := (mem_of_mapM each m).mp List.mem_cons_self
  obtain rfl := List.mem_singleton.mp isSource
  have inSource : Table.get? (Part.paths.entries m.document) "/pets" =
      some (.object [("schema", .object [("$ref", .string "#/definitions/Pet")])]) := by
    rw [isDocument]
    rfl
  have leads : (Resolver.alone m.document "#/definitions/Pet").toOption.map (fun t =>
      aliasTarget? t.node) = some none := by
    rw [isDocument]
    decide +kernel
  obtain ⟨out, combined, after⟩ := exists_ok_of_map kennel_combines
  obtain ⟨inOut, nowhere⟩ := Prod.mk.inj after
  refine ⟨m, out, _, merges, combined, inSource, inOut, by decide, ?_, ?_⟩
  · obtain ⟨t, found, ended⟩ := exists_ok_of_map leads
    exact ⟨t.fragment, t.node, t, found, rfl, rfl, ended⟩
  · rintro ⟨place, node, t, found, _⟩
    rw [found] at nowhere
    cases nowhere

end ApiGraph
