import ApiGraph.Proofs.Json.Refs

/-! Values without repeated keys. The settled form of a value has none (`unrepeated_settled`), and
in a value without them every reference string is replaced for itself alone (`mapRefs_id`). -/

namespace ApiGraph

namespace Json

/-- No object at any depth has a key twice. -/
inductive Unrepeated : Json → Prop
  | null : Unrepeated .null
  | bool (b : Bool) : Unrepeated (.bool b)
  | number (n : JsonNumber) : Unrepeated (.number n)
  | string (s : String) : Unrepeated (.string s)
  | array {items : List Json} (each : ∀ j ∈ items, Unrepeated j) : Unrepeated (.array items)
  | object {fields : List (String × Json)} (unique : (Table.keys fields).Nodup)
    (each : ∀ e ∈ fields, Unrepeated e.2) : Unrepeated (.object fields)

theorem settledItems_eq (items : List Json) : settledItems items = items.map settled := by
  induction items with
  | nil => rfl
  | cons j rest ih => rw [settledItems, ih, List.map_cons]

theorem settledFields_eq (fields : List (String × Json)) :
    settledFields fields = fields.map fun e => (e.1, settled e.2) := by
  induction fields with
  | nil => rfl
  | cons e rest ih => rw [settledFields, ih, List.map_cons]

theorem unrepeated_settled (j : Json) : (settled j).Unrepeated := by
  induction j using induct with
  | null => exact .null
  | bool b => exact .bool b
  | number n => exact .number n
  | string s => exact .string s
  | array items ih =>
    rw [settled, settledItems_eq]
    apply Unrepeated.array
    intro j member
    obtain ⟨i, place, rfl⟩ := List.mem_map.mp member
    exact ih i place
  | object fields ih =>
    rw [settled, settledFields_eq]
    apply Unrepeated.object (Table.keys_ofList_nodup _)
    intro e member
    obtain ⟨entry, place, rfl⟩ := List.mem_map.mp (Table.mem_ofList member)
    exact ih entry place

theorem Unrepeated.children {j : Json} (h : j.Unrepeated) : ∀ k ∈ j.children, k.Unrepeated := by
  cases h with
  | array each => exact each
  | object _ each => exact List.forall_mem_map.mpr each
  | _ => exact nofun

/-- What stands under a key has no repeated keys either. -/
theorem Unrepeated.get? {fields : Table Json} {key : String} {k : Json}
    (h : (Json.object fields).Unrepeated) (found : Table.get? fields key = some k) :
    k.Unrepeated := by
  cases h with
  | object _ each => exact each _ (Table.mem_of_get?_eq_some found)

/-- Entries that are left out bring no key twice. -/
theorem Unrepeated.filterFields {fields : List (String × Json)}
    (h : (Json.object fields).Unrepeated) (keep : String × Json → Bool) : (Json.object (fields.filter keep)).Unrepeated := by
  cases h with
  | object unique each =>
    apply Unrepeated.object
    · exact unique.sublist (List.filter_sublist.map Prod.fst)
    · exact fun e member => each e (List.mem_of_mem_filter member)

theorem Unrepeated.follow {j k : Json} {segments : List (List Char)} (h : j.Unrepeated)
    (found : j.follow segments = some k) : k.Unrepeated := by
  induction segments generalizing j with
  | nil =>
    cases found
    exact h
  | cons segment rest ih =>
    rw [follow_cons, Option.bind_eq_some_iff] at found
    obtain ⟨next, first, later⟩ := found
    refine ih ?_ later
    cases j with
    | object fields => exact h.get? first
    | array items =>
      obtain ⟨i, _, place⟩ := Option.bind_eq_some_iff.mp first
      cases h with
      | array each => exact each next (List.mem_of_getElem? place)
    | _ => cases first

theorem Unrepeated.lookup {j k : Json} {f : Fragment} (h : j.Unrepeated)
    (found : f.lookup j = some k) : k.Unrepeated := by
  cases f with
  | document =>
    cases found
    exact h
  | name text =>
    cases j with
    | object fields => exact h.get? found
    | _ => cases found
  | pointer text =>
    obtain ⟨segments, _, way⟩ := Option.bind_eq_some_iff.mp found
    exact h.follow way

/-- Replacing reference strings keeps the keys. -/
theorem Unrepeated.mapRefs {j : Json} (h : j.Unrepeated) (f : String → String) :
    (j.mapRefs f).Unrepeated := by
  induction j using induct with
  | array items ih =>
    cases h with
    | array each =>
      rw [mapRefs_array]
      apply Unrepeated.array
      intro k member
      obtain ⟨j, place, rfl⟩ := List.mem_map.mp member
      exact ih j place (each j place)
  | object fields ih =>
    cases h with
    | object unique each =>
      rw [mapRefs_object]
      apply Unrepeated.object
      · rwa [keys_mapEntries]
      · intro e member
        obtain ⟨entry, place, rfl⟩ := List.mem_map.mp member
        by_cases here : entry.1 = refKey
        · simp only [here, ↓reduceIte]
          cases aliasTarget? (.object fields) with
          | none => exact each entry place
          | some raw => exact .string (f raw)
        · simp only [here, ↓reduceIte]
          exact ih entry place (each entry place)
  | _ => exact h

theorem Unrepeated.insert {fields : Table Json} {key : String} {k : Json}
    (h : (Json.object fields).Unrepeated) (new : k.Unrepeated) :
    (Json.object (Table.insert fields key k)).Unrepeated := by
  cases h with
  | object unique each =>
    refine .object (Table.keys_insert_nodup unique key k) fun e member => ?_
    rcases Table.mem_insert member with old | rfl
    · exact each e old
    · exact new

theorem mapRefs_id {j : Json} (h : j.Unrepeated) : mapRefs id j = j := by
  induction j using induct with
  | array items ih =>
    cases h with
    | array each =>
      rw [mapRefs_array, List.map_congr_left fun j member => ih j member (each j member),
        List.map_id']
  | object fields ih =>
    cases h with
    | object unique each =>
      rw [mapRefs_id_object_iff]
      intro e member
      split
      · rename_i here
        intro raw target
        have found := (Table.get?_eq_some_iff unique).mpr member
        rw [aliasTarget?_object, ← here, found, Option.bind_some] at target
        cases value : e.2 <;> simp_all [string?]
      · exact ih e member (each e member)
  | _ => rfl

end Json

end ApiGraph
