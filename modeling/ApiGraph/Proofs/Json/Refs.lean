import ApiGraph.Proofs.Json.Pointer
import ApiGraph.Reference.Links
import Mathlib.Algebra.GroupWithZero.Nat
import Mathlib.Algebra.Order.BigOperators.Group.List
import Mathlib.Algebra.Order.Group.Nat
import Mathlib.Data.List.Basic

/-! The reference strings of a value. A walk meets `refs`; what stands below the key `$ref` itself
is hidden from it (`hiddenRefs`), and the two together are all reference strings (`mem_allRefs`).
`mapRefs` is what `mapRefsM` does without effects. It changes exactly the strings that the walk
meets, and nothing that is hidden. -/

namespace ApiGraph.Json

/-- Induction over a value, with the hypothesis for every item and every entry. -/
theorem induct {motive : Json → Prop} (null : motive .null) (bool : ∀ b, motive (.bool b))
    (number : ∀ n, motive (.number n)) (string : ∀ s, motive (.string s))
    (array : ∀ items, (∀ j ∈ items, motive j) → motive (.array items))
    (object : ∀ fields : List (String × Json), (∀ entry ∈ fields, motive entry.2) →
      motive (.object fields)) (j : Json) : motive j := by
  apply Json.rec (motive_1 := motive) (motive_2 := fun items => ∀ j ∈ items, motive j)
    (motive_3 := fun fields => ∀ entry ∈ fields, motive entry.2)
    (motive_4 := fun entry => motive entry.2)
  case null => exact null
  case bool => exact bool
  case number => exact number
  case string => exact string
  case array => exact array
  case object => exact object
  case nil => simp
  case nil => simp
  case cons =>
    intro j rest here later other member
    rcases List.mem_cons.mp member with rfl | member
    · exact here
    · exact later other member
  case cons =>
    intro entry rest here later other member
    rcases List.mem_cons.mp member with rfl | member
    · exact here
    · exact later other member
  case mk => exact fun _ _ here => here

/-- What stands directly in a value. -/
def children : Json → List Json
  | .array items => items
  | .object fields => fields.map Prod.snd
  | _ => []

/-- Induction over a value, with the hypothesis for everything that stands in it. -/
theorem induct_children {motive : Json → Prop}
    (step : ∀ j : Json, (∀ k ∈ j.children, motive k) → motive j) (j : Json) : motive j := by
  induction j using induct with
  | array items ih => exact step _ ih
  | object fields ih => exact step _ (List.forall_mem_map.mpr ih)
  | _ => exact step _ nofun

mutual

/-- The reference strings that a walk meets, in its order. -/
def refs : Json → List String
  | .array items => refsItems items
  | .object fields => (aliasTarget? (.object fields)).toList ++ refsFields fields
  | _ => []

def refsItems : List Json → List String
  | [] => []
  | j :: rest => refs j ++ refsItems rest

def refsFields : List (String × Json) → List String
  | [] => []
  | (key, j) :: rest => (if key = refKey then [] else refs j) ++ refsFields rest

end

mutual

/-- All reference strings at any depth. An object that holds a reference string has nothing else
under its key. -/
def allRefs : Json → List String
  | .array items => allRefsItems items
  | .object fields => (aliasTarget? (.object fields)).toList ++
      allRefsFields (aliasTarget? (.object fields)).isSome fields
  | _ => []

def allRefsItems : List Json → List String
  | [] => []
  | j :: rest => allRefs j ++ allRefsItems rest

def allRefsFields (held : Bool) : List (String × Json) → List String
  | [] => []
  | (key, j) :: rest =>
    (if key = refKey ∧ held = true then [] else allRefs j) ++ allRefsFields held rest

end

mutual

/-- The reference strings below a key `$ref` that holds no reference string. -/
def hiddenRefs : Json → List String
  | .array items => hiddenRefsItems items
  | .object fields => hiddenRefsFields (aliasTarget? (.object fields)).isSome fields
  | _ => []

def hiddenRefsItems : List Json → List String
  | [] => []
  | j :: rest => hiddenRefs j ++ hiddenRefsItems rest

def hiddenRefsFields (held : Bool) : List (String × Json) → List String
  | [] => []
  | (key, j) :: rest =>
    (if key = refKey then (if held then [] else allRefs j) else hiddenRefs j) ++
      hiddenRefsFields held rest

end

mutual

/-- The value with every string that a walk meets replaced by what the function gives for it. -/
def mapRefs (f : String → String) : Json → Json
  | .array items => .array (mapRefsItems f items)
  | .object fields =>
    .object (setRef ((aliasTarget? (.object fields)).map f) (mapRefsFields f fields))
  | j => j

def mapRefsItems (f : String → String) : List Json → List Json
  | [] => []
  | j :: rest => mapRefs f j :: mapRefsItems f rest

def mapRefsFields (f : String → String) : List (String × Json) → List (String × Json)
  | [] => []
  | (key, j) :: rest => (key, if key = refKey then j else mapRefs f j) :: mapRefsFields f rest

end

/-! The parts for items and entries, as operations on lists. -/

theorem refsItems_eq (items : List Json) : refsItems items = items.flatMap refs := by
  induction items with
  | nil => rfl
  | cons j rest ih => simp [refsItems, ih]

theorem refsFields_eq (fields : List (String × Json)) :
    refsFields fields = fields.flatMap fun e => if e.1 = refKey then [] else refs e.2 := by
  induction fields with
  | nil => rfl
  | cons e rest ih => simp [refsFields, ih]

theorem allRefsItems_eq (items : List Json) : allRefsItems items = items.flatMap allRefs := by
  induction items with
  | nil => rfl
  | cons j rest ih => simp [allRefsItems, ih]

theorem allRefsFields_eq (held : Bool) (fields : List (String × Json)) :
    allRefsFields held fields =
      fields.flatMap fun e => if e.1 = refKey ∧ held = true then [] else allRefs e.2 := by
  induction fields with
  | nil => rfl
  | cons e rest ih => simp [allRefsFields, ih]

theorem hiddenRefsItems_eq (items : List Json) :
    hiddenRefsItems items = items.flatMap hiddenRefs := by
  induction items with
  | nil => rfl
  | cons j rest ih => simp [hiddenRefsItems, ih]

theorem hiddenRefsFields_eq (held : Bool) (fields : List (String × Json)) :
    hiddenRefsFields held fields = fields.flatMap fun e =>
      if e.1 = refKey then (if held then [] else allRefs e.2) else hiddenRefs e.2 := by
  induction fields with
  | nil => rfl
  | cons e rest ih => simp [hiddenRefsFields, ih]

theorem mapRefsItems_eq (f : String → String) (items : List Json) :
    mapRefsItems f items = items.map (mapRefs f) := by
  induction items with
  | nil => rfl
  | cons j rest ih => simp [mapRefsItems, ih]

theorem mapRefsFields_eq (f : String → String) (fields : List (String × Json)) :
    mapRefsFields f fields =
      fields.map fun e => (e.1, if e.1 = refKey then e.2 else mapRefs f e.2) := by
  induction fields with
  | nil => rfl
  | cons e rest ih => simp [mapRefsFields, ih]

theorem setRef_eq (ref : Option String) (fields : List (String × Json)) :
    setRef ref fields = fields.map fun e =>
      (e.1, if e.1 = refKey then (ref.map Json.string).getD e.2 else e.2) := by
  induction fields with
  | nil => rfl
  | cons e rest ih =>
    cases ref with
    | none => simp [setRef, ih]
    | some text => simp [setRef, ih]

/-- The entries of an object after its strings were replaced. -/
def mapEntries (f : String → String) (fields : Table Json) : Table Json :=
  fields.map fun e => (e.1,
    if e.1 = refKey then (((aliasTarget? (.object fields)).map f).map Json.string).getD e.2
    else mapRefs f e.2)

theorem mapRefs_object (f : String → String) (fields : List (String × Json)) :
    mapRefs f (.object fields) = .object (mapEntries f fields) := by
  simp only [mapRefs, mapRefsFields_eq, setRef_eq, List.map_map, mapEntries, object.injEq]
  apply List.map_congr_left
  intro e _
  by_cases here : e.1 = refKey <;> simp [here]

theorem mapRefs_array (f : String → String) (items : List Json) :
    mapRefs f (.array items) = .array (items.map (mapRefs f)) := by
  rw [mapRefs, mapRefsItems_eq]

theorem refs_object (fields : List (String × Json)) : refs (.object fields) =
    (aliasTarget? (.object fields)).toList ++
      fields.flatMap fun e => if e.1 = refKey then [] else refs e.2 := by
  rw [refs, refsFields_eq]

theorem hiddenRefs_object (fields : List (String × Json)) : hiddenRefs (.object fields) =
    fields.flatMap fun e =>
      if e.1 = refKey then (if (aliasTarget? (.object fields)).isSome then [] else allRefs e.2)
      else hiddenRefs e.2 := by
  rw [hiddenRefs, hiddenRefsFields_eq]

theorem allRefs_object (fields : List (String × Json)) : allRefs (.object fields) =
    (aliasTarget? (.object fields)).toList ++ fields.flatMap fun e =>
      if e.1 = refKey ∧ (aliasTarget? (.object fields)).isSome = true then [] else allRefs e.2 := by
  rw [allRefs, allRefsFields_eq]

/-! Lookups. -/

@[simp] theorem keys_mapEntries (f : String → String) (fields : Table Json) :
    Table.keys (mapEntries f fields) = Table.keys fields := by
  simp [mapEntries, Table.keys, Function.comp_def]

theorem get?_mapEntries (f : String → String) (fields : Table Json) {key : String}
    (h : key ≠ refKey) :
    Table.get? (mapEntries f fields) key = (Table.get? fields key).map (mapRefs f) := by
  have law := Table.get?_map (fun name j =>
    if name = refKey then (((aliasTarget? (.object fields)).map f).map Json.string).getD j
    else mapRefs f j) fields key
  simpa [mapEntries, h] using law

theorem get?_mapEntries_refKey (f : String → String) (fields : Table Json) :
    Table.get? (mapEntries f fields) refKey =
      (Table.get? fields refKey).map fun j =>
        (((aliasTarget? (.object fields)).map f).map Json.string).getD j := by
  have law := Table.get?_map (fun name j =>
    if name = refKey then (((aliasTarget? (.object fields)).map f).map Json.string).getD j
    else mapRefs f j) fields refKey
  simpa [mapEntries] using law

theorem aliasTarget?_object (fields : Table Json) :
    aliasTarget? (.object fields) = (Table.get? fields refKey).bind string? := rfl

/-- The reference string of an object is replaced as any other one. -/
theorem aliasTarget?_mapRefs (f : String → String) (j : Json) :
    aliasTarget? (mapRefs f j) = (aliasTarget? j).map f := by
  cases j with
  | object fields =>
    rw [mapRefs_object, aliasTarget?_object, get?_mapEntries_refKey, aliasTarget?_object]
    cases found : Table.get? fields refKey with
    | none => rfl
    | some value => cases value <;> rfl
  | _ => rfl

/-- Replacement makes no reference of an entry and takes none away. -/
theorem exists_get?_mapEntries (f : String → String) {fields : Table Json} {key : String} {j : Json}
    (h : Table.get? fields key = some j) : ∃ j', Table.get? (mapEntries f fields) key = some j' ∧
      (aliasTarget? j' = none ↔ aliasTarget? j = none) := by
  by_cases here : key = refKey
  · subst key
    rw [get?_mapEntries_refKey, h, aliasTarget?_object, h]
    refine ⟨_, rfl, ?_⟩
    cases j <;> rfl
  · rw [get?_mapEntries f fields here, h]
    refine ⟨_, rfl, ?_⟩
    rw [aliasTarget?_mapRefs, Option.map_eq_none_iff]

theorem exists_of_isObject {j : Json} (h : j.isObject = true) :
    ∃ fields, j = .object fields := by
  cases j <;> cases h
  exact ⟨_, rfl⟩

theorem isObject_mapRefs (f : String → String) (j : Json) :
    (mapRefs f j).isObject = j.isObject := by
  cases j <;> rfl

theorem get?_mapRefs (f : String → String) (j : Json) {key : String} (h : key ≠ refKey) :
    (mapRefs f j).get? key = (j.get? key).map (mapRefs f) := by
  cases j with
  | object fields =>
    rw [mapRefs_object]
    exact get?_mapEntries f fields h
  | _ => rfl

/-- A text under any other key than `$ref` is left alone. -/
theorem string?_get?_mapRefs (f : String → String) (j : Json) {key : String} (h : key ≠ refKey) :
    ((mapRefs f j).get? key).bind string? = (j.get? key).bind string? := by
  rw [get?_mapRefs f j h]
  cases j.get? key with
  | none => rfl
  | some value => cases value <;> rfl

theorem aliasTarget?_insert {key : String} (other : key ≠ refKey) (fields : Table Json)
    (new : Json) :
    aliasTarget? (.object (Table.insert fields key new)) = aliasTarget? (.object fields) := by
  rw [aliasTarget?_object, Table.get?_insert_ne other, aliasTarget?_object]

/-- Objects that are added behind the entries of an object make it no reference. -/
theorem aliasTarget?_append {added : Table Json} (objects : ∀ e ∈ added, e.2.isObject = true)
    (fields : Table Json) :
    aliasTarget? (.object (fields ++ added)) = aliasTarget? (.object fields) := by
  rw [aliasTarget?_object, Table.get?_append, aliasTarget?_object]
  cases found : Table.get? fields refKey with
  | some j => rfl
  | none =>
    cases new : Table.get? added refKey with
    | none => rfl
    | some j =>
      have shape := objects _ (Table.mem_of_get?_eq_some new)
      cases j <;> simp_all [isObject, string?]

/-- A path that does not lead through a key `$ref`. -/
def Open (segments : List (List Char)) : Prop :=
  ∀ segment ∈ segments, Pointer.unescape segment ≠ refKey.toList

instance (segments : List (List Char)) : Decidable (Open segments) :=
  inferInstanceAs (Decidable (∀ segment ∈ segments, Pointer.unescape segment ≠ refKey.toList))

theorem step_mapRefs (f : String → String) (j : Json) {segment : List Char}
    (other : Pointer.unescape segment ≠ refKey.toList) :
    Pointer.step (mapRefs f j) segment = (Pointer.step j segment).map (mapRefs f) := by
  cases j with
  | array items =>
    rw [mapRefs_array]
    simp only [Pointer.step]
    cases Pointer.index? (Pointer.unescape segment) with
    | none => rfl
    | some i => simp
  | object fields =>
    rw [mapRefs_object, step_object, step_object]
    apply get?_mapEntries
    intro same
    apply other
    rw [← same, String.toList_ofList]
  | _ => rfl

/-- What stands below a key `$ref` is left alone, except for the string right under it. -/
theorem step_mapRefs_refKey (f : String → String) (j : Json) {segment : List Char}
    (here : Pointer.unescape segment = refKey.toList) :
    Pointer.step (mapRefs f j) segment = (Pointer.step j segment).map fun
      | .string s => .string (f s)
      | value => value := by
  cases j with
  | array items =>
    have noIndex : Pointer.index? refKey.toList = none := by decide
    simp [mapRefs_array, Pointer.step, here, noIndex]
  | object fields =>
    rw [mapRefs_object, step_object, step_object, here, String.ofList_toList,
      get?_mapEntries_refKey, aliasTarget?_object]
    cases Table.get? fields refKey with
    | none => rfl
    | some value => cases value <;> rfl
  | _ => rfl

/-- What replacement makes of a node at the end of a path. -/
def copyAt (f : String → String) (segments : List (List Char)) (node : Json) : Json :=
  if Open segments then node.mapRefs f
  else if Open segments.dropLast then
    match node with
    | .string s => .string (f s)
    | value => value
  else node

theorem open_cons {segment : List Char} (other : Pointer.unescape segment ≠ refKey.toList)
    (rest : List (List Char)) : Open (segment :: rest) ↔ Open rest := by
  simp [Open, other]

theorem not_open_cons {segment : List Char} (here : Pointer.unescape segment = refKey.toList)
    (rest : List (List Char)) : ¬ Open (segment :: rest) := by
  simp [Open, here]

theorem copyAt_cons (f : String → String) {segment : List Char}
    (other : Pointer.unescape segment ≠ refKey.toList) (rest : List (List Char)) :
    copyAt f (segment :: rest) = copyAt f rest := by
  funext node
  cases rest with
  | nil => simp [copyAt, Open, other]
  | cons second rest =>
    unfold copyAt
    simp only [List.dropLast_cons_cons, open_cons other]

/-- Whatever is reached in a value is reached after replacement as well. -/
theorem follow_mapRefs (f : String → String) (j : Json) (segments : List (List Char)) :
    (mapRefs f j).follow segments = (j.follow segments).map (copyAt f segments) := by
  induction segments generalizing j with
  | nil => rfl
  | cons segment rest ih =>
    by_cases here : Pointer.unescape segment = refKey.toList
    · rw [follow_cons, follow_cons, step_mapRefs_refKey f j here]
      have hidden := not_open_cons here
      cases Pointer.step j segment with
      | none => rfl
      | some value =>
        cases rest with
        | nil =>
          have start : Open ([segment].dropLast) := by simp [Open]
          simp only [Option.map_some, Option.bind_some, follow_nil, copyAt, hidden, start,
            ↓reduceIte]
        | cons second rest =>
          have inside : copyAt f (segment :: second :: rest) = id := by
            funext node
            unfold copyAt
            rw [if_neg (hidden _), List.dropLast_cons_cons, if_neg (hidden _)]
            rfl
          rw [inside, Option.map_id_fun, id]
          cases value <;> rfl
    · rw [follow_cons, follow_cons, step_mapRefs f j here, copyAt_cons f here]
      cases Pointer.step j segment with
      | none => rfl
      | some next => exact ih next

/-- What is reached without going through a key `$ref` has its own strings replaced. -/
theorem follow_mapRefs_of_open (f : String → String) (j : Json) {segments : List (List Char)}
    (h : Open segments) :
    (mapRefs f j).follow segments = (j.follow segments).map (mapRefs f) := by
  have copy : copyAt f segments = mapRefs f := by
    funext node
    unfold copyAt
    rw [if_pos h]
  rw [follow_mapRefs, copy]

theorem aliasTarget?_copyAt (f : String → String) (segments : List (List Char)) {node : Json}
    (h : aliasTarget? node = none) : aliasTarget? (copyAt f segments node) = none := by
  unfold copyAt
  split
  · rw [aliasTarget?_mapRefs, h]
    rfl
  · split
    · split
      · rfl
      · exact h
    · exact h

/-! The strings after replacement. -/

/-- The strings that a walk meets after replacement are those it met before, replaced. -/
theorem refs_mapRefs (f : String → String) (j : Json) :
    (mapRefs f j).refs = j.refs.map f := by
  induction j using induct with
  | array items ih =>
    rw [mapRefs_array, refs, refs, refsItems_eq, refsItems_eq, List.flatMap_map, List.map_flatMap]
    exact List.flatMap_congr ih
  | object fields ih =>
    have target := aliasTarget?_mapRefs f (.object fields)
    rw [mapRefs_object] at target ⊢
    rw [refs_object, refs_object, target, List.map_append]
    congr 1
    · cases aliasTarget? (.object fields) <;> rfl
    · rw [mapEntries, List.flatMap_map, List.map_flatMap]
      apply List.flatMap_congr
      intro e member
      by_cases here : e.1 = refKey
      · simp [here]
      · simp [here, ih e member]
  | _ => rfl

theorem hiddenRefs_mapRefs (f : String → String) (j : Json) :
    (mapRefs f j).hiddenRefs = j.hiddenRefs := by
  induction j using induct with
  | array items ih =>
    rw [mapRefs_array, hiddenRefs, hiddenRefs, hiddenRefsItems_eq, hiddenRefsItems_eq,
      List.flatMap_map]
    exact List.flatMap_congr ih
  | object fields ih =>
    have target := aliasTarget?_mapRefs f (.object fields)
    rw [mapRefs_object] at target ⊢
    rw [hiddenRefs_object, hiddenRefs_object, target, Option.isSome_map, mapEntries,
      List.flatMap_map]
    apply List.flatMap_congr
    intro e member
    by_cases here : e.1 = refKey
    · cases held : aliasTarget? (.object fields) <;> simp [here]
    · simp [here, ih e member]
  | _ => rfl

/-- Every reference string is met by a walk or hidden from it. -/
theorem mem_allRefs {raw : String} (j : Json) :
    raw ∈ j.allRefs ↔ raw ∈ j.refs ∨ raw ∈ j.hiddenRefs := by
  induction j using induct with
  | array items ih =>
    simp only [allRefs, refs, hiddenRefs, allRefsItems_eq, refsItems_eq, hiddenRefsItems_eq,
      List.mem_flatMap]
    constructor
    · rintro ⟨j, member, found⟩
      rcases (ih j member).mp found with met | hidden
      · exact Or.inl ⟨j, member, met⟩
      · exact Or.inr ⟨j, member, hidden⟩
    · rintro (⟨j, member, met⟩ | ⟨j, member, hidden⟩)
      · exact ⟨j, member, (ih j member).mpr (Or.inl met)⟩
      · exact ⟨j, member, (ih j member).mpr (Or.inr hidden)⟩
  | object fields ih =>
    rw [allRefs_object, refs_object, hiddenRefs_object]
    simp only [List.mem_append, List.mem_flatMap, or_assoc]
    apply or_congr_right
    have entries : ∀ e ∈ fields,
        (raw ∈ (if e.1 = refKey ∧ (aliasTarget? (.object fields)).isSome = true then []
          else allRefs e.2) ↔
        raw ∈ (if e.1 = refKey then [] else refs e.2) ∨
        raw ∈ if e.1 = refKey then
          (if (aliasTarget? (.object fields)).isSome then [] else allRefs e.2)
          else hiddenRefs e.2) := by
      intro e member
      by_cases here : e.1 = refKey
      · simp [here]
      · simp [here, ih e member]
    constructor
    · rintro ⟨e, member, found⟩
      rcases (entries e member).mp found with met | hidden
      · exact Or.inl ⟨e, member, met⟩
      · exact Or.inr ⟨e, member, hidden⟩
    · rintro (⟨e, member, met⟩ | ⟨e, member, hidden⟩)
      · exact ⟨e, member, (entries e member).mpr (Or.inl met)⟩
      · exact ⟨e, member, (entries e member).mpr (Or.inr hidden)⟩
  | _ => simp [allRefs, refs, hiddenRefs]

/-! Replacing twice, and replacing in two ways. -/

theorem mapRefs_congr {f g : String → String} {j : Json} (h : ∀ raw ∈ j.refs, f raw = g raw) :
    mapRefs f j = mapRefs g j := by
  induction j using induct with
  | array items ih =>
    rw [mapRefs_array, mapRefs_array]
    simp only [refs, refsItems_eq, List.mem_flatMap] at h
    congr 1
    apply List.map_congr_left
    intro j member
    exact ih j member fun raw found => h raw ⟨j, member, found⟩
  | object fields ih =>
    rw [refs_object] at h
    rw [mapRefs_object, mapRefs_object, mapEntries, mapEntries]
    congr 1
    apply List.map_congr_left
    intro e member
    by_cases here : e.1 = refKey
    · cases target : aliasTarget? (.object fields) with
      | none => simp [here]
      | some raw => simp [here, h raw (by simp [target])]
    · have same : mapRefs f e.2 = mapRefs g e.2 := by
        apply ih e member
        intro raw found
        apply h raw
        rw [List.mem_append, List.mem_flatMap]
        exact Or.inr ⟨e, member, by simpa [here] using found⟩
      simp [here, same]
  | _ => rfl

theorem mapRefs_mapRefs (f g : String → String) (j : Json) :
    mapRefs f (mapRefs g j) = mapRefs (f ∘ g) j := by
  induction j using induct with
  | array items ih =>
    rw [mapRefs_array, mapRefs_array, mapRefs_array, List.map_map]
    congr 1
    exact List.map_congr_left ih
  | object fields ih =>
    have target := aliasTarget?_mapRefs g (.object fields)
    rw [mapRefs_object] at target
    rw [mapRefs_object, mapRefs_object, mapRefs_object, mapEntries, target, mapEntries, mapEntries,
      List.map_map]
    congr 1
    apply List.map_congr_left
    intro e member
    by_cases here : e.1 = refKey
    · cases aliasTarget? (.object fields) <;> simp [here]
    · simp [here, ih e member]
  | _ => rfl

/-! Values that a walk without changes gives back. The strings under `$ref` of one object must not
differ, which they do not after any walk. -/

theorem mapRefs_id_mapRefs (f : String → String) (j : Json) :
    (j.mapRefs f).mapRefs id = j.mapRefs f := mapRefs_mapRefs id f j

theorem mapRefs_id_object_iff {fields : Table Json} :
    (Json.object fields).mapRefs id = .object fields ↔ ∀ e ∈ fields,
      if e.1 = refKey then ∀ raw, aliasTarget? (.object fields) = some raw → e.2 = .string raw
      else e.2.mapRefs id = e.2 := by
  rw [mapRefs_object, mapEntries, Json.object.injEq]
  constructor
  · intro same e member
    have entry := List.map_inj_left.mp (same.trans (List.map_id fields).symm) e member
    have value := congrArg Prod.snd entry
    split
    · rename_i here
      intro raw target
      simpa [here, target] using value.symm
    · rename_i other
      simpa [other] using value
  · intro entries
    conv_rhs => rw [← List.map_id fields]
    apply List.map_congr_left
    intro e member
    have entry := entries e member
    by_cases here : e.1 = refKey
    · rw [if_pos here] at entry
      cases target : aliasTarget? (.object fields) with
      | none => simp [here, Prod.ext_iff]
      | some raw => simp [here, Prod.ext_iff, entry raw target]
    · rw [if_neg here] at entry
      simp [here, entry]

theorem mapRefs_id_insert {key : String} (other : key ≠ refKey) {fields : Table Json} {new : Json}
    (same : (Json.object fields).mapRefs id = .object fields) (sameNew : new.mapRefs id = new) :
    (Json.object (Table.insert fields key new)).mapRefs id =
      .object (Table.insert fields key new) := by
  rw [mapRefs_id_object_iff, aliasTarget?_insert other]
  intro e member
  rcases Table.mem_insert member with old | rfl
  · exact mapRefs_id_object_iff.mp same e old
  · simpa [other] using sameNew

theorem mapRefs_id_append {fields added : Table Json} (objects : ∀ e ∈ added, e.2.isObject = true)
    (fresh : ∀ key ∈ Table.keys added, key ∉ Table.keys fields)
    (same : (Json.object fields).mapRefs id = .object fields)
    (sameAdded : ∀ e ∈ added, e.2.mapRefs id = e.2) :
    (Json.object (fields ++ added)).mapRefs id = .object (fields ++ added) := by
  rw [mapRefs_id_object_iff, aliasTarget?_append objects]
  intro e member
  rcases List.mem_append.mp member with old | new
  · exact mapRefs_id_object_iff.mp same e old
  · split
    · rename_i here
      have absent := Table.get?_eq_none_iff.mpr (fresh e.1 (List.mem_map_of_mem new))
      simp [aliasTarget?_object, ← here, absent]
    · exact sameAdded e new

/-! Objects that grow. Of the reference strings that a walk meets and of all reference strings, an
object has its own one and those of its entries, so one law for each way to grow serves both. -/

/-- The strings of an object are its own one and those of its entries. What stands under `$ref` is
left out or not, by the string that the object holds. -/
def Gathers (skipped : Option String → Bool) (strings : Json → List String) : Prop :=
  ∀ fields, strings (.object fields) =
    (aliasTarget? (.object fields)).toList ++ fields.flatMap fun e =>
      if e.1 = refKey ∧ skipped (aliasTarget? (.object fields)) = true then [] else strings e.2

theorem gathers_refs : Gathers (fun _ => true) refs := fun fields => by simp [refs_object]

theorem gathers_allRefs : Gathers Option.isSome allRefs := allRefs_object

section

variable {skipped : Option String → Bool} {strings : Json → List String} {raw : String}

/-- A new value brings to an object what it brings to its place. -/
theorem Gathers.mem_insert (law : Gathers skipped strings) {key : String} {new : Json} {more : Prop}
    (other : key ≠ refKey) (fields : Table Json) (grown : raw ∈ strings new ↔
      raw ∈ strings ((Table.get? fields key).getD (.object [])) ∨ more) :
    raw ∈ strings (.object (Table.insert fields key new)) ↔
      raw ∈ strings (.object fields) ∨ more := by
  rw [law, law, aliasTarget?_insert other, List.mem_append, List.mem_append, or_assoc]
  apply or_congr_right
  apply Table.mem_flatMap_insert
  have empty : strings (.object []) = [] := by
    rw [law]
    rfl
  cases place : Table.get? fields key <;> simpa [place, other, empty] using grown

/-- Entries with new names bring their own strings, if none of them is a string itself. What comes
under `$ref` is left out only if it is left out of objects that hold no string. -/
theorem Gathers.mem_append (law : Gathers skipped strings) {fields added : Table Json}
    (objects : ∀ e ∈ added, e.2.isObject = true)
    (fresh : ∀ key ∈ Table.keys added, key ∉ Table.keys fields) :
    raw ∈ strings (.object (fields ++ added)) ↔ raw ∈ strings (.object fields) ∨
      ∃ e ∈ added, ¬ (e.1 = refKey ∧ skipped none = true) ∧ raw ∈ strings e.2 := by
  have holds : ∀ e ∈ added, e.1 = refKey → aliasTarget? (.object fields) = none := by
    rintro e member name
    have absent := Table.get?_eq_none_iff.mpr (fresh _ (List.mem_map_of_mem member))
    rw [name] at absent
    rw [aliasTarget?_object, absent]
    rfl
  rw [law, law, aliasTarget?_append objects, List.flatMap_append, List.mem_append, List.mem_append,
    List.mem_append, or_assoc]
  apply or_congr_right
  apply or_congr_right
  rw [List.mem_flatMap]
  refine exists_congr fun e => and_congr_right fun member => ?_
  by_cases here : e.1 = refKey
  · rw [holds e member here]
    by_cases left : skipped none = true <;> simp [here, left]
  · simp [here]

end

/-! Counting. -/

theorem linkCountItems_eq (items : List Json) :
    linkCountItems items = (items.map linkCount).sum := by
  induction items with
  | nil => rfl
  | cons j rest ih => simp [linkCountItems, ih]

theorem linkCountFields_eq (fields : List (String × Json)) :
    linkCountFields fields = (fields.map fun e => linkCount e.2).sum := by
  induction fields with
  | nil => rfl
  | cons e rest ih => simp [linkCountFields, ih]

/-- There are at most as many reference strings as were counted. -/
theorem length_allRefs_le (j : Json) : j.allRefs.length ≤ j.linkCount := by
  induction j using induct with
  | array items ih =>
    simp only [allRefs, allRefsItems_eq, linkCount, linkCountItems_eq, List.length_flatMap]
    exact List.sum_le_sum ih
  | object fields ih =>
    rw [allRefs_object, linkCount, linkCountFields_eq, List.length_append, List.length_flatMap]
    have below : (fields.map fun e => (if e.1 = refKey ∧
        (aliasTarget? (.object fields)).isSome = true then [] else allRefs e.2).length).sum ≤
        (fields.map fun e => linkCount e.2).sum := by
      apply List.sum_le_sum
      intro e member
      have bound := ih e member
      split
      · simp
      · exact bound
    have own : (aliasTarget? (.object fields)).toList.length =
        if (aliasTarget? (.object fields)).isSome then 1 else 0 := by
      cases aliasTarget? (.object fields) <;> rfl
    rw [own]
    omega
  | _ => simp [allRefs]

/-! Reference strings of parts. -/

theorem mem_refs_of_aliasTarget? {node : Json} {raw : String} (h : aliasTarget? node = some raw) :
    raw ∈ node.refs := by
  cases node with
  | object fields =>
    rw [refs_object, h]
    simp
  | _ => cases h

/-- What stands under a key holds no other reference strings. -/
theorem allRefs_get? {fields : Table Json} {key : String} {k : Json}
    (h : Table.get? fields key = some k) : k.allRefs ⊆ (Json.object fields).allRefs := by
  intro raw found
  rw [allRefs_object, List.mem_append, List.mem_flatMap]
  refine Or.inr ⟨(key, k), Table.mem_of_get?_eq_some h, ?_⟩
  by_cases held : key = refKey ∧ (aliasTarget? (.object fields)).isSome = true
  · obtain ⟨rfl, isSome⟩ := held
    rw [aliasTarget?_object, h] at isSome
    cases k <;> simp_all [string?, allRefs]
  · rw [if_neg held]
    exact found

theorem allRefs_of_get? {j k : Json} {key : String} (h : j.get? key = some k) :
    k.allRefs ⊆ j.allRefs := by
  cases j with
  | object fields => exact allRefs_get? h
  | _ => cases h

/-- A walk meets what stands under any other key than `$ref`. -/
theorem refs_of_get? {j k : Json} {key : String} (other : key ≠ refKey) (h : j.get? key = some k) :
    k.refs ⊆ j.refs := by
  cases j with
  | object fields =>
    intro raw met
    rw [refs_object, List.mem_append, List.mem_flatMap]
    exact Or.inr ⟨(key, k), Table.mem_of_get?_eq_some h, by rwa [if_neg other]⟩
  | _ => cases h

theorem allRefs_step {j k : Json} {segment : List Char} (h : Pointer.step j segment = some k) :
    k.allRefs ⊆ j.allRefs := by
  cases j with
  | object fields => exact allRefs_get? h
  | array items =>
    obtain ⟨i, _, place⟩ := Option.bind_eq_some_iff.mp h
    intro raw found
    rw [allRefs, allRefsItems_eq, List.mem_flatMap]
    exact ⟨k, List.mem_of_getElem? place, found⟩
  | _ => cases h

theorem allRefs_follow {j k : Json} {segments : List (List Char)}
    (h : j.follow segments = some k) : k.allRefs ⊆ j.allRefs := by
  induction segments generalizing j with
  | nil =>
    cases h
    exact fun _ found => found
  | cons segment rest ih =>
    rw [follow_cons, Option.bind_eq_some_iff] at h
    obtain ⟨next, first, later⟩ := h
    exact fun raw found => allRefs_step first (ih later found)

theorem allRefs_lookup {j k : Json} {f : Fragment} (h : f.lookup j = some k) :
    k.allRefs ⊆ j.allRefs := by
  cases f with
  | document =>
    cases h
    exact fun _ found => found
  | name text => exact allRefs_of_get? h
  | pointer text =>
    obtain ⟨segments, _, way⟩ := Option.bind_eq_some_iff.mp h
    exact allRefs_follow way

end ApiGraph.Json
