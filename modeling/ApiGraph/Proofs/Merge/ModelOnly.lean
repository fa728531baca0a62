import ApiGraph.Proofs.Merge.AuthoringKeys
import ApiGraph.Proofs.Merge.Carried

/-! Properties for models only, in a combined document. A definition loses those of its own
properties that are for models only, with all that stands behind them (`Hidden`). Nothing else of it
is taken out besides authoring keys, so the properties of schemas within the definition stay,
whatever their marks (`definition_place_gone_iff`). -/

namespace ApiGraph

namespace Merge

open Json (Edge)

/-- A place in a definition stands at or behind a property of the definition itself that is for
models only. -/
def Hidden (schema : Json) (place : List Edge) : Prop :=
  ∃ name later property, place = .key "properties" :: .key name :: later ∧
    schema.at? [.key "properties", .key name] = some property ∧ isModelOnly property = true

/-- The place in a document of what stands at a place in one of its definitions. -/
def definitionPlace (title : String) (place : List Edge) : List Edge :=
  .key "components" :: .key "schemas" :: .key title :: place

variable {schema out : Json} {place : List Edge} {top : Table Json} {documents : List Json}

/-- What stands at or behind a property for models only is gone. -/
theorem Hidden.gone (hidden : Hidden schema place) (unrepeated : schema.Unrepeated) :
    (withoutModelOnly schema).at? place = none := by
  obtain ⟨name, later, property, rfl, found, modelOnly⟩ := hidden
  rw [Json.at?_key_key] at found
  rcases withoutModelOnly_cases unrepeated with
    ⟨fields, properties, reduced, rfl, stands, same, filtered⟩ | ⟨_, nothing⟩
  · have inProperties : Table.get? properties name = some property := by
      rw [Json.get?, Json.fields?, Option.bind_some, stands] at found
      exact found
    rw [same, Json.at?_cons, Json.child?_object_key, Table.get?_insert_self, Option.bind_some,
      Json.at?_cons, Json.child?_object_key, filtered, inProperties]
    simp [modelOnly]
  · rw [nothing] at found
    cases found

/-- What is not hidden is there as before, whatever its marks. -/
theorem hidden_of_gone (unrepeated : schema.Unrepeated) {node : Json}
    (found : schema.at? place = some node) (gone : (withoutModelOnly schema).at? place = none) :
    Hidden schema place := by
  rcases withoutModelOnly_cases unrepeated with
    ⟨fields, properties, reduced, rfl, stands, same, filtered⟩ | ⟨same, _⟩
  · rw [same] at gone
    cases place with
    | nil => cases gone
    | cons edge rest =>
      obtain ⟨key, rfl⟩ : ∃ key, edge = .key key := by
        cases edge with
        | key name => exact ⟨name, rfl⟩
        | item i => cases found
      rw [Json.at?_cons, Json.child?_object_key] at found gone
      by_cases isProperties : key = "properties"
      · subst isProperties
        rw [stands, Option.bind_some] at found
        rw [Table.get?_insert_self, Option.bind_some] at gone
        cases rest with
        | nil => cases gone
        | cons second later =>
          obtain ⟨name, rfl⟩ : ∃ name, second = .key name := by
            cases second with
            | key name => exact ⟨name, rfl⟩
            | item i => cases found
          rw [Json.at?_cons, Json.child?_object_key] at found gone
          obtain ⟨property, inProperties, after⟩ := Option.bind_eq_some_iff.mp found
          rw [filtered, inProperties] at gone
          refine ⟨name, later, property, rfl, ?_, ?_⟩
          · rw [Json.at?_key_key, Json.get?, Json.fields?, Option.bind_some, stands]
            exact inProperties
          · by_contra kept
            simp [Option.filter, kept, after] at gone
      · rw [Table.get?_insert_ne (Ne.symm isProperties), found] at gone
        cases gone
  · rw [same, found] at gone
    cases gone

/-- What stands in the combined document at a place in a definition. -/
theorem Rebuilt.at?_definition (h : Rebuilt top documents out)
    (unrepeated : ∀ document ∈ documents, document.Unrepeated) {title : String}
    (last : (Part.component "schemas").last documents title = some schema) (place : List Edge) :
    out.at? (definitionPlace title place) = if title ∈ authoringKeys then none
      else (stripAuthoringKeys (withoutModelOnly schema)).at? place := by
  have collected : Part.component "schemas" ∈ parts := by decide
  obtain ⟨entries, holds⟩ := h.isObject _ collected
  have found := h.get?_entries unrepeated collected title
  rw [Part.entries, holds, Option.bind_some, Json.fields?, Option.getD_some, last] at found
  change out.at? ([.key "components", .key "schemas"] ++ .key title :: place) = _
  have reached : out.at? [.key "components", .key "schemas"] = some (.object entries) :=
    (Json.at?_key_key _ _ _).trans holds
  rw [Json.at?_append, reached, Option.bind_some, Json.at?_cons, Json.child?_object_key, found]
  by_cases authoring : title ∈ authoringKeys
  · rw [if_pos authoring, if_pos authoring]
    rfl
  · rw [if_neg authoring, if_neg authoring]
    rfl

theorem unmarked_definitionPlace (title : String) (place : List Edge) :
    Unmarked (definitionPlace title place) ↔ title ∉ authoringKeys ∧ Unmarked place := by
  have fixed : "components" ∉ authoringKeys ∧ "schemas" ∉ authoringKeys := by decide
  have key : ∀ name : String, (∀ key ∈ authoringKeys, Edge.key name ≠ .key key) ↔
      name ∉ authoringKeys := by
    intro name
    simp only [ne_eq, Edge.key.injEq]
    exact ⟨fun other listed => other name listed rfl, fun absent key listed same =>
      absent (same ▸ listed)⟩
  rw [definitionPlace, unmarked_cons, unmarked_cons, unmarked_cons, key, key, key]
  simp only [fixed, not_false_eq_true, true_and]

/-- What takes a place out of a definition. -/
theorem Rebuilt.gone_iff (h : Rebuilt top documents out)
    (unrepeated : ∀ document ∈ documents, document.Unrepeated) {title : String}
    (last : (Part.component "schemas").last documents title = some schema) {node : Json}
    (found : schema.at? place = some node) : out.at? (definitionPlace title place) = none ↔
      Hidden schema place ∨ ¬ Unmarked (definitionPlace title place) := by
  have unique := Part.unrepeated_of_last unrepeated last
  have reduced : (withoutModelOnly schema).at? place = none ↔ Hidden schema place :=
    ⟨hidden_of_gone unique found, fun hidden => hidden.gone unique⟩
  rw [h.at?_definition unrepeated last, unmarked_definitionPlace]
  by_cases authoring : title ∈ authoringKeys
  · simp [authoring]
  · rw [if_neg authoring, at?_stripAuthoringKeys_eq_none_iff, reduced, or_comm]
    simp [authoring]

end Merge

open Json (Edge)
open Merge (Part Hidden Unmarked definitionPlace)

/-- Of a combined document no definition has a property of its own that is for models only. What
else stands in the definition that counts is taken out exactly if it stands behind such a property
or under an authoring key. -/
theorem definition_place_gone_iff {files : FileTree} {master : Path} {sources : List Path}
    {out : Json} (combined : combine files master sources = .ok out) :
    ∃ merged, sources.mapM (mergeFile files) = .ok merged ∧
      ∀ title schema, (Part.component "schemas").last (merged.map (·.document)) title = some schema →
        (∀ name property, schema.at? [.key "properties", .key name] = some property →
          Merge.isModelOnly property = true →
          out.at? (definitionPlace title [.key "properties", .key name]) = none) ∧
        ∀ place node, schema.at? place = some node →
          (out.at? (definitionPlace title place) = none ↔
            Hidden schema place ∨ ¬ Unmarked (definitionPlace title place)) := by
  obtain ⟨top, merged, _, each, made⟩ := combine_eq_ok_iff.mp combined
  have unrepeated := unrepeated_of_each each
  have rebuilt : Merge.Rebuilt top (merged.map (·.document)) out := by
    rw [made]
    exact Merge.rebuilt_of_unrepeated top unrepeated
  refine ⟨merged, each, fun title schema last => ⟨?_, fun place node found => ?_⟩⟩
  · intro name property found modelOnly
    rw [rebuilt.gone_iff unrepeated last found]
    exact Or.inl ⟨name, [], property, rfl, found, modelOnly⟩
  · exact rebuilt.gone_iff unrepeated last found

/-- A cart with a property for models only, and a member that has one too. -/
def auditFiles : FileTree where
  entries := [(["master.yaml"], .file "openapi: 3.0.0\n"),
    (["carts.yaml"], .file ("components:\n  schemas:\n    Cart:\n      properties:\n" ++
      "        audit:\n          x-db:\n            model_only: true\n      allOf:\n" ++
      "      - properties:\n          secret:\n            x-db:\n" ++
      "              model_only: true\n"))]

/-- What is for models only. -/
def auditMark : Json := .object [("x-db", .object [("model_only", .bool true)])]

def auditCart : Json := .object
  [("properties", .object [("audit", auditMark)]),
    ("allOf", .array [.object [("properties", .object [("secret", auditMark)])]])]

/-- The place of the property of the member. -/
def secretPlace : List Edge := [.key "allOf", .item 0, .key "properties", .key "secret"]

/-- The cart comes into the combined document, and the property of its member is left in it. -/
theorem auditFiles_combined : ∃ merged out,
    ([⟨"/carts.yaml"⟩] : List Path).mapM (mergeFile auditFiles) = .ok merged ∧
    combine auditFiles ⟨"/master.yaml"⟩ [⟨"/carts.yaml"⟩] = .ok out ∧
    (Part.component "schemas").last (merged.map (·.document)) "Cart" = some auditCart ∧
    out.at? (definitionPlace "Cart" secretPlace) = some (.object []) := by
  have merges : (([⟨"/carts.yaml"⟩] : List Path).mapM (mergeFile auditFiles)).toOption.map
      (fun merged => merged.map (·.document)) =
        some [.object [("components", .object [("schemas", .object [("Cart", auditCart)])])]] := by
    decide +kernel
  have loads : auditFiles.load ⟨"/master.yaml"⟩ =
      .ok (.object [("openapi", .string "3.0.0")]) := by
    decide +kernel
  obtain ⟨merged, each, documents⟩ := exists_ok_of_map merges
  refine ⟨merged, _, each, combine_eq_ok_iff.mpr ⟨_, merged, loads, each, rfl⟩, ?_, ?_⟩
  · rw [documents]
    decide
  · rw [documents]
    decide

/-- The property of the cart is gone, and that of its member is there. -/
theorem auditCart_gone : ∃ out,
    combine auditFiles ⟨"/master.yaml"⟩ [⟨"/carts.yaml"⟩] = .ok out ∧
    out.at? (definitionPlace "Cart" [.key "properties", .key "audit"]) = none ∧
    out.at? (definitionPlace "Cart" secretPlace) ≠ none := by
  obtain ⟨merged, out, each, combined, last, _⟩ := auditFiles_combined
  obtain ⟨merged', each', law⟩ := definition_place_gone_iff combined
  rw [each] at each'
  cases each'
  obtain ⟨own, places⟩ := law "Cart" auditCart last
  refine ⟨out, combined, own "audit" auditMark (by decide) (by decide), ?_⟩
  rw [Ne, places secretPlace auditMark (by decide), not_or, not_not]
  refine ⟨?_, by decide⟩
  rintro ⟨name, later, property, same, _⟩
  simp [secretPlace] at same

/-- A property for models only of a member is published. -/
theorem secret_published : ∃ merged out node,
    ([⟨"/carts.yaml"⟩] : List Path).mapM (mergeFile auditFiles) = .ok merged ∧
    combine auditFiles ⟨"/master.yaml"⟩ [⟨"/carts.yaml"⟩] = .ok out ∧
    (Part.component "schemas").last (merged.map (·.document)) "Cart" = some auditCart ∧
    auditCart.at? secretPlace = some node ∧ Merge.isModelOnly node = true ∧
    out.at? (definitionPlace "Cart" secretPlace) = some (.object []) := by
  obtain ⟨merged, out, each, combined, last, there⟩ := auditFiles_combined
  exact ⟨merged, out, auditMark, each, combined, last, by decide, by decide, there⟩

end ApiGraph
