import ApiGraph.Proofs.Json.Record
import ApiGraph.Proofs.Json.Unrepeated
import ApiGraph.Proofs.Merge.Meaning

/-! A document with its table of definitions changed. Everything else of the document stays, as do
the definitions that both tables have; adding definitions is one such change
(`addDefinitions_withDefinitions`). With its definitions in another order, a document has the same
records at the same places (`exists_lookup`). -/

namespace ApiGraph

namespace Json

/-- An object with the value at a key changed, if it has the key. -/
def amendAt (key : String) (change : Json → Json) : Json → Json
  | .object fields => .object (Table.amend fields key change)
  | j => j

/-- An object with its entries changed. -/
def amendFields (change : Table Json → Table Json) : Json → Json
  | .object fields => .object (change fields)
  | j => j

theorem get?_amendAt (key : String) (change : Json → Json) (j : Json) (other : String) :
    (amendAt key change j).get? other =
      if key = other then (j.get? other).map change else j.get? other := by
  cases j with
  | object fields => exact Table.get?_amend fields key change other
  | _ =>
    change none = if key = other then Option.map change none else none
    simp

/-- A change below a key that is no reference brings in no reference strings if the change at the
key does not. -/
theorem Gathers.amendAt {skipped : Option String → Bool} {strings : Json → List String}
    (law : Gathers skipped strings) {key : String} (other : key ≠ refKey) {change : Json → Json}
    (fewer : ∀ k, strings (change k) ⊆ strings k) (j : Json) :
    strings (amendAt key change j) ⊆ strings j := by
  cases j with
  | object fields =>
    have target : aliasTarget? (.object (Table.amend fields key change)) =
        aliasTarget? (.object fields) := by
      rw [aliasTarget?_object, Table.get?_amend, if_neg other, aliasTarget?_object]
    intro raw
    rw [Json.amendAt, law, law, target, List.mem_append, List.mem_append]
    refine Or.imp id ?_
    rw [List.mem_flatMap, List.mem_flatMap]
    rintro ⟨e, member, found⟩
    rw [Table.amend] at member
    split at member
    · rename_i old there
      rcases Table.mem_insert member with before | rfl
      · exact ⟨e, before, found⟩
      · rw [if_neg (fun h => other h.1)] at found
        refine ⟨(key, old), Table.mem_of_get?_eq_some there, ?_⟩
        rw [if_neg (fun h => other h.1)]
        exact fewer old found
    · exact ⟨e, member, found⟩
  | _ => exact fun _ found => found

/-- Entries that are left out take their reference strings with them. -/
theorem Gathers.filter {skipped : Option String → Bool} {strings : Json → List String}
    (law : Gathers skipped strings) (keep : String → Bool) (j : Json) :
    strings (amendFields (·.filter fun entry => keep entry.1) j) ⊆ strings j := by
  cases j with
  | object fields =>
    have target := Table.get?_filter keep fields refKey
    intro raw
    rw [amendFields, law, law, List.mem_append, List.mem_append, List.mem_flatMap,
      List.mem_flatMap, aliasTarget?_object, aliasTarget?_object, target]
    rintro (own | ⟨e, member, found⟩)
    · left
      split at own
      · exact own
      · simp at own
    · obtain ⟨before, kept⟩ := List.mem_filter.mp member
      refine Or.inr ⟨e, before, ?_⟩
      by_cases here : e.1 = refKey
      · have keeps : keep refKey = true := here ▸ kept
        rwa [if_pos keeps] at found
      · rwa [if_neg (fun h => here h.1)] at found ⊢
  | _ => exact fun _ found => found

theorem Unrepeated.amendAt {j : Json} (h : j.Unrepeated) (key : String) {change : Json → Json}
    (keeps : ∀ k : Json, k.Unrepeated → (change k).Unrepeated) :
    (Json.amendAt key change j).Unrepeated := by
  cases j with
  | object fields =>
    rw [Json.amendAt, Table.amend]
    split
    · rename_i old there
      exact h.insert (keeps old (h.get? there))
    · exact h
  | _ => exact h

theorem Unrepeated.filter {j : Json} (h : j.Unrepeated) (keep : String × Json → Bool) :
    (amendFields (·.filter keep) j).Unrepeated := by
  cases j with
  | object fields => exact h.filterFields keep
  | _ => exact h

end Json

namespace Merge

/-- A document with its table of definitions changed, if it has one. -/
def withDefinitions (change : Table Json → Table Json) : Json → Json :=
  Json.amendAt "components" (Json.amendAt "schemas" (Json.amendFields change))

/-- A document that has a table of definitions. -/
structure HasTable (document : Json) (top components schemas : Table Json) : Prop where
  isTop : document = .object top
  isComponents : Table.get? top "components" = some (.object components)
  isSchemas : Table.get? components "schemas" = some (.object schemas)

theorem HasTable.layout {document : Json} {top components schemas : Table Json}
    (h : HasTable document top components schemas) : Layout document top components schemas where
  isTop := h.isTop
  isComponents := by
    rw [h.isComponents]
    rfl
  isSchemas := by
    rw [h.isSchemas]
    rfl

theorem HasTable.definitions {document : Json} {top components schemas : Table Json}
    (h : HasTable document top components schemas) : definitionsOf document = schemas :=
  definitionsOf_of_layout h.layout

/-- A way along which the table is found ends at the document, at its components or at the table. -/
theorem grows_cases {segments : List (List Char)} (grows : Grows segments) :
    segments = [] ∨ segments.map Json.Pointer.keyOf = ["components"] ∨
      segments.map Json.Pointer.keyOf = ["components", "schemas"] := by
  cases segments with
  | nil => exact Or.inl rfl
  | cons first rest =>
    rw [Grows, List.map_cons, List.cons_prefix_cons] at grows
    obtain ⟨isFirst, grows⟩ := grows
    cases rest with
    | nil => exact Or.inr (Or.inl (by simp [Json.Pointer.keyOf, isFirst]))
    | cons second rest =>
      rw [List.map_cons, List.cons_prefix_cons, List.prefix_nil, List.map_eq_nil_iff] at grows
      obtain ⟨isSecond, rfl⟩ := grows
      exact Or.inr (Or.inr (by simp [Json.Pointer.keyOf, isFirst, isSecond]))

theorem HasTable.follow_components {document : Json} {top components schemas : Table Json}
    (h : HasTable document top components schemas) {segments : List (List Char)}
    (way : segments.map Json.Pointer.keyOf = ["components"]) :
    document.follow segments = some (.object components) := by
  obtain ⟨segment, rfl, isComponents⟩ := List.map_eq_singleton_iff.mp way
  rw [h.isTop, Json.follow_cons, Json.step_object, ← Json.Pointer.keyOf, isComponents,
    h.isComponents]
  rfl

theorem HasTable.follow_schemas {document : Json} {top components schemas : Table Json}
    (h : HasTable document top components schemas) {segments : List (List Char)}
    (way : segments.map Json.Pointer.keyOf = ["components", "schemas"]) :
    document.follow segments = some (.object schemas) := by
  obtain ⟨first, rest, rfl, isComponents, way⟩ := List.map_eq_cons_iff.mp way
  obtain ⟨second, rfl, isSchemas⟩ := List.map_eq_singleton_iff.mp way
  rw [h.isTop, Json.follow_cons, Json.step_object, ← Json.Pointer.keyOf, isComponents,
    h.isComponents, Option.bind_some, Json.follow_cons, Json.step_object, ← Json.Pointer.keyOf,
    isSchemas, h.isSchemas]
  rfl

theorem HasTable.pointer? {document : Json} {top components schemas : Table Json}
    (h : HasTable document top components schemas) :
    document.pointer? definitionsPointer.toList = some (.object schemas) := by
  rw [pointer?_definitions]
  exact h.follow_schemas (by decide)

theorem HasTable.mapRefs {document : Json} {top components schemas : Table Json}
    (h : HasTable document top components schemas) (f : String → String) :
    HasTable (document.mapRefs f) (Json.mapEntries f top) (Json.mapEntries f components)
      (Json.mapEntries f schemas) where
  isTop := by rw [h.isTop, Json.mapRefs_object]
  isComponents := by
    rw [Json.get?_mapEntries f top (by decide), h.isComponents, Option.map_some, Json.mapRefs_object]
  isSchemas := by
    rw [Json.get?_mapEntries f components (by decide), h.isSchemas, Option.map_some,
      Json.mapRefs_object]

theorem hasTable_relaid (top components schemas : Table Json) :
    HasTable (relaid top components schemas)
      (Table.insert top "components" (.object (Table.insert components "schemas" (.object schemas))))
      (Table.insert components "schemas" (.object schemas)) schemas where
  isTop := rfl
  isComponents := Table.get?_insert_self _ _ _
  isSchemas := Table.get?_insert_self _ _ _

theorem withDefinitions_eq {document : Json} {top components schemas : Table Json}
    (h : HasTable document top components schemas) (change : Table Json → Table Json) :
    withDefinitions change document = relaid top components (change schemas) := by
  obtain ⟨rfl, isComponents, isSchemas⟩ := h
  simp [withDefinitions, Json.amendAt, Json.amendFields, Table.amend, isComponents, isSchemas,
    relaid]

/-- A step by a segment that is no index leads to the value at a key. -/
theorem step_key {key : String} (plain : Json.Pointer.unescape key.toList = key.toList)
    (noIndex : Json.Pointer.index? key.toList = none) (j : Json) :
    Json.Pointer.step j key.toList = j.get? key := by
  cases j with
  | object fields =>
    rw [Json.step_object, plain, String.ofList_toList]
    rfl
  | array items =>
    rw [Json.Pointer.step, plain]
    simp only [noIndex]
    rfl
  | _ => rfl

theorem definitionsOf_eq (document : Json) : definitionsOf document =
    (((document.get? "components").bind (·.get? "schemas")).bind Json.fields?).getD [] := by
  have components := @step_key "components" (by decide) (by decide)
  have schemas := @step_key "schemas" (by decide) (by decide)
  rw [definitionsOf, pointer?_definitions, Json.follow_cons, components]
  cases document.get? "components" with
  | none => rfl
  | some j =>
    rw [Option.bind_some, Option.bind_some, Json.follow_cons, schemas]
    cases j.get? "schemas" <;> rfl

/-- A document without a table of definitions is not changed. -/
theorem hasTable_or_unchanged (document : Json) :
    (∃ top components schemas, HasTable document top components schemas) ∨
    ((∀ change, withDefinitions change document = document) ∧ definitionsOf document = []) := by
  have kept : ∀ {fields : Table Json} {key : String} {j : Json} {change : Json → Json},
      Table.get? fields key = some j → change j = j → Table.amend fields key change = fields := by
    intro fields key j change there same
    rw [Table.amend, there]
    simp only [same]
    exact Table.insert_of_get? there
  rw [definitionsOf_eq]
  cases document with
  | object top =>
    cases isComponents : Table.get? top "components" with
    | none =>
      right
      simp [withDefinitions, Json.amendAt, Table.amend, isComponents, Json.get?, Json.fields?]
    | some j =>
      cases j with
      | object components =>
        cases isSchemas : Table.get? components "schemas" with
        | none =>
          right
          refine ⟨fun change => ?_, ?_⟩
          · rw [withDefinitions, Json.amendAt, kept isComponents]
            simp [Json.amendAt, Table.amend, isSchemas]
          · simp [Json.get?, Json.fields?, isComponents, isSchemas]
        | some k =>
          cases k with
          | object schemas => exact Or.inl ⟨top, components, schemas, rfl, isComponents, isSchemas⟩
          | _ =>
            right
            refine ⟨fun change => ?_, ?_⟩
            · rw [withDefinitions, Json.amendAt, kept isComponents]
              rw [Json.amendAt, kept isSchemas rfl]
            · simp [Json.get?, Json.fields?, isComponents, isSchemas]
      | _ =>
        right
        refine ⟨fun change => ?_, ?_⟩
        · rw [withDefinitions, Json.amendAt, kept isComponents rfl]
        · simp [Json.get?, Json.fields?, isComponents]
  | _ => exact Or.inr ⟨fun _ => rfl, rfl⟩

theorem definitionsOf_withDefinitions {change : Table Json → Table Json} (nothing : change [] = [])
    (document : Json) :
    definitionsOf (withDefinitions change document) = change (definitionsOf document) := by
  rcases hasTable_or_unchanged document with ⟨top, components, schemas, table⟩ | ⟨same, none⟩
  · rw [withDefinitions_eq table, (hasTable_relaid _ _ _).definitions, table.definitions]
  · rw [same, none, nothing]

theorem definitionsOf_reordered {document : Json} {schemas : Table Json}
    (perm : schemas.Perm (definitionsOf document)) :
    definitionsOf (withDefinitions (fun _ => schemas) document) = schemas := by
  rcases hasTable_or_unchanged document with ⟨top, components, old, table⟩ | ⟨same, none⟩
  · rw [withDefinitions_eq table, (hasTable_relaid _ _ _).definitions]
  · rw [none, List.perm_nil] at perm
    rw [same, none, perm]

/-- The definitions of a document without repeated keys have one name each, and no repeated keys
themselves. -/
theorem unrepeated_definitions {document : Json} (h : document.Unrepeated) :
    (definitionsOf document).keys.Nodup ∧
      ∀ e ∈ definitionsOf document, e.2.Unrepeated := by
  rcases hasTable_or_unchanged document with ⟨top, components, schemas, table⟩ | ⟨_, none⟩
  · rw [table.definitions]
    rw [table.isTop] at h
    cases (h.get? table.isComponents).get? table.isSchemas with
    | object unique each => exact ⟨unique, each⟩
  · simp [none]

/-- A change counts only for the table that is there. -/
theorem withDefinitions_congr {change other : Table Json → Table Json} {document : Json}
    (same : change (definitionsOf document) = other (definitionsOf document)) :
    withDefinitions change document = withDefinitions other document := by
  rcases hasTable_or_unchanged document with ⟨top, components, schemas, table⟩ | ⟨kept, _⟩
  · rw [withDefinitions_eq table, withDefinitions_eq table, ← table.definitions, same]
  · rw [kept, kept]

theorem relaid_relaid (top components schemas others : Table Json) :
    relaid (Table.insert top "components"
        (.object (Table.insert components "schemas" (.object schemas))))
      (Table.insert components "schemas" (.object schemas)) others =
      relaid top components others := by
  rw [relaid, relaid, Table.insert_insert, Table.insert_insert]

/-- Putting the definitions back gives the document again. -/
theorem withDefinitions_undo (document : Json) (schemas : Table Json) :
    withDefinitions (fun _ => definitionsOf document)
      (withDefinitions (fun _ => schemas) document) = document := by
  rcases hasTable_or_unchanged document with ⟨top, components, old, table⟩ | ⟨same, _⟩
  · rw [withDefinitions_eq table, withDefinitions_eq (hasTable_relaid _ _ _), relaid_relaid,
      table.definitions, relaid, Table.insert_of_get? table.isSchemas,
      Table.insert_of_get? table.isComponents, table.isTop]
  · rw [same, same]

/-- Adding definitions is a change of the table, if there is one. -/
theorem addDefinitions_withDefinitions {change : Table Json → Table Json} {document : Json}
    {added : Table Json} (table : added ≠ [] → definitionsOf document ≠ []) :
    addDefinitions (withDefinitions change document) added =
      .ok (withDefinitions (fun schemas => Table.addAll (change schemas) added) document) := by
  rcases hasTable_or_unchanged document with ⟨top, components, schemas, there⟩ | ⟨kept, none⟩
  · rw [withDefinitions_eq there, withDefinitions_eq there, addDefinitions]
    by_cases nothing : added = []
    · simp [nothing, Table.addAll]
    · rw [if_neg (by simpa using nothing)]
      have law := modifyDefinitions_of_layout
        (hasTable_relaid top components (change schemas)).layout fun schemas =>
          Table.addAll schemas added
      rw [relaid_relaid] at law
      exact law
  · by_cases nothing : added = []
    · rw [kept, kept, nothing]
      rfl
    · exact absurd none (table nothing)

theorem refs_withDefinitions (keep : String → Bool) (document : Json) :
    (withDefinitions (·.filter fun entry => keep entry.1) document).refs ⊆ document.refs := by
  apply Json.gathers_refs.amendAt (by decide)
  exact Json.gathers_refs.amendAt (by decide) (Json.gathers_refs.filter keep)

theorem isObject_withDefinitions (change : Table Json → Table Json) (document : Json) :
    (withDefinitions change document).isObject = document.isObject := by
  cases document <;> rfl

theorem get?_withDefinitions (change : Table Json → Table Json) (document : Json) {key : String}
    (other : key ≠ "components") :
    (withDefinitions change document).get? key = document.get? key := by
  rw [withDefinitions, Json.get?_amendAt, if_neg (Ne.symm other)]

/-! Records in documents with other definitions. -/

section

open Record (Resembles)

variable {document : Json} {schemas : Table Json} {names : List String}

theorem resembles_insert {key : String} (notField : key ∉ names) (fields : Table Json)
    (new : Json) :
    Resembles names (.object fields) (.object (Table.insert fields key new)) := by
  have kept := @Table.filter_insert _ (fun name => decide (name ∈ names)) key
    (by simpa using notField) fields new
  refine .object (by rw [kept]) ?_
  intro other isField
  apply Table.get?_insert_ne
  rintro rfl
  exact notField isField

/-- Whatever stands in a document stands there as well with another table of definitions, if the
definition that is passed on the way is kept. It is read as the same record if the tables are,
unless that has a field under which definitions are found. -/
theorem exists_follow_kept (notComponents : "components" ∉ names) (notSchemas : "schemas" ∉ names)
    {segments : List (List Char)} {node : Json}
    (kept : ∀ name rest, segments.map Json.Pointer.keyOf = "components" :: "schemas" :: name :: rest →
      ∀ value, Table.get? (definitionsOf document) name = some value →
        Table.get? schemas name = some value)
    (alike : segments.map Json.Pointer.keyOf = ["components", "schemas"] →
      Resembles names (.object (definitionsOf document)) (.object schemas))
    (found : document.follow segments = some node) :
    ∃ node', (withDefinitions (fun _ => schemas) document).follow segments = some node' ∧
      Resembles names node node' := by
  rcases hasTable_or_unchanged document with ⟨top, components, old, table⟩ | ⟨same, _⟩
  · rw [table.definitions] at kept alike
    rw [withDefinitions_eq table]
    have after := hasTable_relaid top components schemas
    by_cases grows : Grows segments
    · rcases grows_cases grows with rfl | way | way
      · obtain rfl := Option.some.inj found
        rw [table.isTop]
        exact ⟨_, rfl, resembles_insert notComponents top _⟩
      · rw [table.follow_components way] at found
        obtain rfl := Option.some.inj found
        exact ⟨_, after.follow_components way, resembles_insert notSchemas components _⟩
      · rw [table.follow_schemas way] at found
        obtain rfl := Option.some.inj found
        exact ⟨_, after.follow_schemas way, alike way⟩
    · obtain rfl := table.isTop
      obtain ⟨node', way, replaced⟩ := exists_replaced table.layout kept found
      refine ⟨node', way, ?_⟩
      cases replaced with
      | document grows' | components grows' | schemas grows' => exact absurd grows' grows
      | aside => exact .same node
  · rw [same]
    exact ⟨node, found, .same node⟩

/-- Whatever stands in a document stands there as well when its definitions are in another order. -/
theorem exists_follow (perm : schemas.Perm (definitionsOf document))
    (unique : (definitionsOf document).keys.Nodup) (notComponents : "components" ∉ names)
    (notSchemas : "schemas" ∉ names) {segments : List (List Char)} {node : Json}
    (found : document.follow segments = some node) :
    ∃ node', (withDefinitions (fun _ => schemas) document).follow segments = some node' ∧
      Resembles names node node' := by
  have same := fun key => (Table.get?_eq_of_perm unique perm.symm key).symm
  refine exists_follow_kept notComponents notSchemas ?_ ?_ found
  · intro name _ _ value there
    rw [same, there]
  · exact fun _ => .object (perm.symm.filter _) fun key _ => same key

theorem exists_lookup (perm : schemas.Perm (definitionsOf document))
    (unique : (definitionsOf document).keys.Nodup) (notComponents : "components" ∉ names)
    (notSchemas : "schemas" ∉ names) {fragment : Fragment} {node : Json}
    (found : fragment.lookup document = some node) :
    ∃ node', fragment.lookup (withDefinitions (fun _ => schemas) document) = some node' ∧
      Resembles names node node' := by
  cases fragment with
  | document => exact @exists_follow _ _ _ perm unique notComponents notSchemas [] _ found
  | name text =>
    have found : document.get? text = some node := found
    have shape : document.isObject = true := by
      cases document <;> first | rfl | cases found
    have shape' : (withDefinitions (fun _ => schemas) document).isObject = true := by
      rw [isObject_withDefinitions, shape]
    rw [Json.get?_eq_follow shape] at found
    obtain ⟨node', found', resembles⟩ := exists_follow perm unique notComponents notSchemas found
    exact ⟨node', (Json.get?_eq_follow shape' text).trans found', resembles⟩
  | pointer text =>
    obtain ⟨segments, read, found⟩ := Option.bind_eq_some_iff.mp found
    obtain ⟨node', found', resembles⟩ := exists_follow perm unique notComponents notSchemas found
    exact ⟨node', Option.bind_eq_some_iff.mpr ⟨segments, read, found'⟩, resembles⟩

end

end Merge

end ApiGraph
