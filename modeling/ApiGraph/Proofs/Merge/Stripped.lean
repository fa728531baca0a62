import ApiGraph.Merge.Sources
import ApiGraph.Proofs.Json.Unrepeated
import ApiGraph.Proofs.Table.Order

/-! What is taken out of a combined document. A path through a value leads to the same as before,
with authoring keys taken out, unless it passes one itself (`follow_stripAuthoringKeys`); and a path
through a schema leads somewhere unless it passes a property that is for models only
(`exists_follow_withoutModelOnly`). A node is a reference exactly if it was one. -/

namespace ApiGraph

namespace Merge

open Json.Pointer (keyOf step)

/-! Authoring keys. -/

theorem stripItems_eq (items : List Json) : stripItems items = items.map stripAuthoringKeys := by
  induction items with
  | nil => rfl
  | cons j rest ih => rw [stripItems, ih, List.map_cons]

theorem stripFields_eq (fields : List (String × Json)) : stripFields fields =
    (fields.filter fun e => e.1 ∉ authoringKeys).map fun e => (e.1, stripAuthoringKeys e.2) := by
  induction fields with
  | nil => rfl
  | cons e rest ih =>
    rw [stripFields, ih]
    by_cases authoring : e.1 ∈ authoringKeys <;> simp [authoring]

theorem keys_stripFields (fields : Table Json) :
    Table.keys (stripFields fields) = (Table.keys fields).filter (· ∉ authoringKeys) := by
  rw [stripFields_eq, Table.keys, Table.keys, List.map_map, List.filter_map]
  rfl

theorem get?_stripFields (fields : Table Json) (key : String) :
    Table.get? (stripFields fields) key =
      if key ∈ authoringKeys then none else (Table.get? fields key).map stripAuthoringKeys := by
  have stripped := Table.get?_map (fun _ j => stripAuthoringKeys j)
    (fields.filter fun e => e.1 ∉ authoringKeys) key
  have kept := Table.get?_filter (fun name => name ∉ authoringKeys) fields key
  rw [stripFields_eq, stripped, kept]
  by_cases authoring : key ∈ authoringKeys <;> simp [authoring]

theorem get?_stripAuthoringKeys {key : String} (kept : key ∉ authoringKeys) (j : Json) :
    (stripAuthoringKeys j).get? key = (j.get? key).map stripAuthoringKeys := by
  cases j with
  | object fields =>
    have entry := get?_stripFields fields key
    rw [if_neg kept] at entry
    exact entry
  | _ => rfl

theorem index?_authoring {key : String} (authoring : key ∈ authoringKeys) :
    Json.Pointer.index? key.toList = none := by
  revert key
  decide

theorem step_stripAuthoringKeys (j : Json) (segment : List Char) :
    step (stripAuthoringKeys j) segment =
      if keyOf segment ∈ authoringKeys then none else (step j segment).map stripAuthoringKeys := by
  cases j with
  | object fields => exact get?_stripFields fields (keyOf segment)
  | array items =>
    rw [stripAuthoringKeys, stripItems_eq, step, step]
    by_cases authoring : keyOf segment ∈ authoringKeys
    · have noIndex := index?_authoring authoring
      rw [keyOf, String.toList_ofList] at noIndex
      rw [if_pos authoring, noIndex]
      rfl
    · rw [if_neg authoring]
      cases Json.Pointer.index? (Json.Pointer.unescape segment) with
      | none => rfl
      | some i => exact List.getElem?_map
  | _ => split <;> rfl

/-- A path that passes no authoring key leads to what it led to before, with authoring keys taken
out there. -/
theorem follow_stripAuthoringKeys (j : Json) (segments : List (List Char)) :
    (stripAuthoringKeys j).follow segments =
      if ∃ key ∈ segments.map keyOf, key ∈ authoringKeys then none
      else (j.follow segments).map stripAuthoringKeys := by
  induction segments generalizing j with
  | nil => simp
  | cons segment rest ih =>
    rw [Json.follow_cons, Json.follow_cons, step_stripAuthoringKeys]
    by_cases authoring : keyOf segment ∈ authoringKeys
    · rw [if_pos authoring, if_pos ⟨_, by simp, authoring⟩]
      rfl
    · rw [if_neg authoring]
      cases step j segment with
      | none => simp
      | some k => simp [ih, authoring]

theorem string?_stripAuthoringKeys (j : Json) : (stripAuthoringKeys j).string? = j.string? := by
  cases j <;> rfl

theorem aliasTarget?_stripAuthoringKeys (j : Json) :
    aliasTarget? (stripAuthoringKeys j) = aliasTarget? j := by
  rw [aliasTarget?, aliasTarget?, get?_stripAuthoringKeys (by decide)]
  cases j.get? refKey with
  | none => rfl
  | some k => exact string?_stripAuthoringKeys k

/-! Properties for models only. -/

/-- A property is marked as being for models only. -/
def ModelOnly (property : Json) : Prop :=
  ∃ mark, property.get? "x-db" = some mark ∧ mark.get? "model_only" = some (.bool true)

theorem isModelOnly_iff {property : Json} : isModelOnly property = true ↔ ModelOnly property := by
  have found : isModelOnly property = true ↔
      (property.get? "x-db").bind (·.get? "model_only") = some (.bool true) := by
    rw [isModelOnly]
    split <;> simp_all
  rw [found, Option.bind_eq_some_iff, ModelOnly]

instance (property : Json) : Decidable (ModelOnly property) :=
  decidable_of_iff _ isModelOnly_iff

/-- A schema with those of its own properties taken out that are for models only, and all else at
its place. -/
inductive Trimmed : Json → Json → Prop
  | properties {before after properties : Table Json} (first : "properties" ∉ before.keys) :
    Trimmed (.object (before ++ ("properties", .object properties) :: after))
      (.object (before ++
        ("properties", .object (properties.filter fun entry => ¬ ModelOnly entry.2)) :: after))
  | bare {schema : Json}
    (none : ∀ properties, schema.get? "properties" ≠ some (.object properties)) :
    Trimmed schema schema

theorem withoutModelOnly_of_properties {before after properties : Table Json}
    (first : "properties" ∉ before.keys) :
    withoutModelOnly (.object (before ++ ("properties", .object properties) :: after)) =
      .object (before ++
        ("properties", .object (properties.filter fun entry => ¬ ModelOnly entry.2)) :: after) := by
  have found : Table.get? (before ++ ("properties", .object properties) :: after) "properties" =
      some (Json.object properties) :=
    Table.get?_eq_some_iff_append.mpr ⟨before, after, rfl, first⟩
  have kept : (properties.filter fun entry => !isModelOnly entry.2) =
      properties.filter fun entry => ¬ ModelOnly entry.2 := by
    congr 1
    funext entry
    rw [Bool.eq_iff_iff, decide_eq_true_iff, ← isModelOnly_iff, Bool.not_eq_true', Bool.not_eq_true]
  simp only [withoutModelOnly, found, Option.bind_some, Json.fields?,
    Table.insert_append_cons first, kept]

theorem withoutModelOnly_of_bare {schema : Json}
    (none : ∀ properties, schema.get? "properties" ≠ some (.object properties)) :
    withoutModelOnly schema = schema := by
  cases schema with
  | object fields =>
    cases found : Table.get? fields "properties" with
    | none => simp [withoutModelOnly, found]
    | some value =>
      cases value with
      | object properties => exact absurd found (none properties)
      | _ => simp [withoutModelOnly, found, Json.fields?]
  | _ => rfl

/-- There is one trimmed form of a schema. -/
theorem trimmed_iff {schema out : Json} : Trimmed schema out ↔ out = withoutModelOnly schema := by
  constructor
  · intro h
    cases h with
    | properties first => exact (withoutModelOnly_of_properties first).symm
    | bare none => exact (withoutModelOnly_of_bare none).symm
  · rintro rfl
    by_cases table : ∃ properties, schema.get? "properties" = some (.object properties)
    · obtain ⟨properties, found⟩ := table
      obtain ⟨fields, rfl, found⟩ : ∃ fields, schema = .object fields ∧
          Table.get? fields "properties" = some (.object properties) := by
        cases schema with
        | object fields => exact ⟨fields, rfl, found⟩
        | _ => cases found
      obtain ⟨before, after, rfl, first⟩ := Table.get?_eq_some_iff_append.mp found
      rw [withoutModelOnly_of_properties first]
      exact .properties first
    · have none : ∀ properties, schema.get? "properties" ≠ some (.object properties) := by
        simpa using table
      rw [withoutModelOnly_of_bare none]
      exact .bare none

/-- A path through a schema passes a property that is for models only. -/
def PassesModelOnly (schema : Json) (keys : List String) : Prop :=
  ∃ name later property, keys = "properties" :: name :: later ∧
    (schema.get? "properties").bind (·.get? name) = some property ∧ isModelOnly property = true

variable {schema node : Json} {segments : List (List Char)}

/-- A schema with properties loses some of them, and any other value is left as it is. -/
theorem withoutModelOnly_cases (unrepeated : schema.Unrepeated) :
    (∃ fields properties reduced, schema = .object fields ∧
      Table.get? fields "properties" = some (.object properties) ∧
      withoutModelOnly schema = .object (Table.insert fields "properties" (.object reduced)) ∧
      ∀ name, Table.get? reduced name =
        (Table.get? properties name).filter fun j => !isModelOnly j) ∨
    withoutModelOnly schema = schema ∧
      ∀ name, (schema.get? "properties").bind (·.get? name) = none := by
  cases schema with
  | object fields =>
    cases found : Table.get? fields "properties" with
    | none =>
      right
      simp [withoutModelOnly, Json.get?, Json.fields?, found]
    | some value =>
      cases value with
      | object properties =>
        left
        have unique : (Table.keys properties).Nodup := by
          cases unrepeated.get? found with
          | object unique _ => exact unique
        refine ⟨fields, properties, _, rfl, found, ?_, Table.get?_filter_values unique _⟩
        simp [withoutModelOnly, found, Json.fields?]
      | _ =>
        right
        simp [withoutModelOnly, Json.get?, Json.fields?, found]
  | _ => exact Or.inr ⟨rfl, fun _ => rfl⟩

theorem unrepeated_withoutModelOnly (unrepeated : schema.Unrepeated) :
    (withoutModelOnly schema).Unrepeated := by
  have trimmed := trimmed_iff.mpr (Eq.refl (withoutModelOnly schema))
  generalize withoutModelOnly schema = out at trimmed
  cases trimmed with
  | bare => exact unrepeated
  | @properties before after properties first =>
    rw [← Table.insert_append_cons first (.object properties)]
    apply unrepeated.insert
    have found : Table.get? (before ++ ("properties", .object properties) :: after) "properties" =
        some (Json.object properties) :=
      Table.get?_eq_some_iff_append.mpr ⟨before, after, rfl, first⟩
    exact (unrepeated.get? found).filterFields _

/-- A text is not marked as being for models only. -/
theorem isModelOnly_of_string? {j : Json} {text : String} (h : j.string? = some text) :
    isModelOnly j = false := by
  cases j <;> cases h
  rfl

theorem follow_withoutModelOnly_eq_none (unrepeated : schema.Unrepeated)
    (passes : PassesModelOnly schema (segments.map keyOf)) :
    (withoutModelOnly schema).follow segments = none := by
  obtain ⟨name, later, property, keys, found, modelOnly⟩ := passes
  rcases withoutModelOnly_cases unrepeated with
    ⟨fields, properties, reduced, rfl, place, same, filtered⟩ | ⟨_, nothing⟩
  · obtain ⟨first, rest, rfl, isFirst, keys⟩ := List.map_eq_cons_iff.mp keys
    obtain ⟨second, rest, rfl, isSecond, _⟩ := List.map_eq_cons_iff.mp keys
    have inProperties : Table.get? properties name = some property := by
      rw [Json.get?, Json.fields?, Option.bind_some, place] at found
      exact found
    rw [same, Json.follow_cons, Json.step_object, ← keyOf, isFirst, Table.get?_insert_self,
      Option.bind_some, Json.follow_cons, Json.step_object, ← keyOf, isSecond, filtered,
      inProperties]
    simp [modelOnly]
  · rw [nothing] at found
    cases found

/-- Besides properties that are for models only, everything is left in its place. -/
theorem exists_follow_withoutModelOnly (unrepeated : schema.Unrepeated)
    (found : schema.follow segments = some node)
    (kept : ¬ PassesModelOnly schema (segments.map keyOf)) :
    ∃ node', (withoutModelOnly schema).follow segments = some node' ∧
      aliasTarget? node' = aliasTarget? node := by
  rcases withoutModelOnly_cases unrepeated with
    ⟨fields, properties, reduced, rfl, place, same, filtered⟩ | ⟨same, _⟩
  · rw [same]
    cases segments with
    | nil =>
      cases found
      exact ⟨_, rfl, Json.aliasTarget?_insert (by decide) _ _⟩
    | cons segment rest =>
      rw [Json.follow_cons, Json.step_object, ← keyOf] at found ⊢
      by_cases isProperties : keyOf segment = "properties"
      · rw [isProperties, place, Option.bind_some] at found
        rw [isProperties, Table.get?_insert_self, Option.bind_some]
        cases rest with
        | nil =>
          cases found
          refine ⟨_, rfl, ?_⟩
          rw [Json.aliasTarget?_object, Json.aliasTarget?_object, filtered]
          cases Table.get? properties refKey with
          | none => rfl
          | some value =>
            cases isText : value.string? with
            | none => simp [Option.filter, isText]
            | some text => simp [Option.filter, isModelOnly_of_string? isText]
        | cons second later =>
          rw [Json.follow_cons, Json.step_object, ← keyOf] at found ⊢
          obtain ⟨property, inProperties, after⟩ := Option.bind_eq_some_iff.mp found
          have stays : isModelOnly property = false := by
            by_contra modelOnly
            apply kept
            refine ⟨keyOf second, later.map keyOf, property, ?_, ?_, by simpa using modelOnly⟩
            · rw [List.map_cons, List.map_cons, isProperties]
            · rw [Json.get?, Json.fields?, Option.bind_some, place]
              exact inProperties
          refine ⟨node, ?_, rfl⟩
          rw [filtered, inProperties]
          simp [Option.filter, stays, after]
      · rw [Table.get?_insert_ne (Ne.symm isProperties)]
        exact ⟨node, found, rfl⟩
  · rw [same]
    exact ⟨node, found, rfl⟩

end Merge

end ApiGraph
