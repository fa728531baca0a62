import ApiGraph.Proofs.Json.Places
import ApiGraph.Proofs.Merge.Stripped

/-! Taking out authoring keys takes out nothing else. No object is left with such a key, and every
place that no such key leads to holds a value of the same shape as before (`Stripped`). This says
all there is to say of what comes out (`Stripped.eq`), and doing it again changes nothing
(`stripAuthoringKeys_exact`). -/

namespace ApiGraph

open Json (Edge)

/-- No object at any depth has one of the keys. -/
inductive Json.Lacks (keys : List String) : Json → Prop
  | null : Lacks keys .null
  | bool (b : Bool) : Lacks keys (.bool b)
  | number (n : JsonNumber) : Lacks keys (.number n)
  | string (s : String) : Lacks keys (.string s)
  | array {items : List Json} (each : ∀ j ∈ items, Lacks keys j) : Lacks keys (.array items)
  | object {fields : List (String × Json)} (without : ∀ key ∈ Table.keys fields, key ∉ keys)
    (each : ∀ e ∈ fields, Lacks keys e.2) : Lacks keys (.object fields)

/-- What stands below a value that lacks some keys lacks them, and none of them leads there. -/
theorem Json.Lacks.child {keys : List String} {j k : Json} {edge : Edge} (h : j.Lacks keys)
    (found : j.child? edge = some k) : k.Lacks keys ∧ ∀ key ∈ keys, edge ≠ .key key := by
  cases edge with
  | key name =>
    cases h with
    | object without each =>
      refine ⟨each _ (Table.mem_of_get?_eq_some found), ?_⟩
      rintro key listed ⟨⟩
      exact without name (Table.mem_keys_of_get? found) listed
    | _ => cases found
  | item i =>
    cases h with
    | array each => exact ⟨each k (List.mem_of_getElem? found), nofun⟩
    | _ => cases found

namespace Merge

/-- A place that no authoring key leads to. -/
def Unmarked (place : List Edge) : Prop := ∀ key ∈ authoringKeys, .key key ∉ place

instance (place : List Edge) : Decidable (Unmarked place) :=
  inferInstanceAs (Decidable (∀ key ∈ authoringKeys, Edge.key key ∉ place))

/-- Values of one kind: the same scalar, arrays of one length, or objects with the same keys in the
same order besides authoring keys. -/
def SameShape : Json → Json → Prop
  | .array items, .array items' => items'.length = items.length
  | .object fields, .object fields' =>
    Table.keys fields' = (Table.keys fields).filter (· ∉ authoringKeys)
  | j, j' => j' = j

/-- A value with its authoring keys taken out and all else left. -/
structure Stripped (j out : Json) : Prop where
  lacks : out.Lacks authoringKeys
  kept : ∀ place node, Unmarked place → j.at? place = some node →
    ∃ node', out.at? place = some node' ∧ SameShape node node'
  nothingNew : ∀ place node', out.at? place = some node' →
    Unmarked place ∧ ∃ node, j.at? place = some node ∧ SameShape node node'

theorem lacks_stripAuthoringKeys (j : Json) : (stripAuthoringKeys j).Lacks authoringKeys := by
  induction j using Json.induct with
  | null => exact .null
  | bool b => exact .bool b
  | number n => exact .number n
  | string s => exact .string s
  | array items ih =>
    rw [stripAuthoringKeys, stripItems_eq]
    apply Json.Lacks.array
    intro k member
    obtain ⟨j, place, rfl⟩ := List.mem_map.mp member
    exact ih j place
  | object fields ih =>
    rw [stripAuthoringKeys]
    apply Json.Lacks.object
    · intro key member
      rw [keys_stripFields, List.mem_filter] at member
      simpa using member.2
    · intro e member
      rw [stripFields_eq] at member
      obtain ⟨entry, place, rfl⟩ := List.mem_map.mp member
      exact ih entry (List.mem_of_mem_filter place)

/-- What has no authoring key is left as it is. -/
theorem stripAuthoringKeys_of_lacks {j : Json} (h : j.Lacks authoringKeys) :
    stripAuthoringKeys j = j := by
  induction h with
  | array each ih =>
    rw [stripAuthoringKeys, stripItems_eq, List.map_congr_left ih, List.map_id']
  | @object fields without each ih =>
    have all : fields.filter (fun e => e.1 ∉ authoringKeys) = fields := by
      rw [List.filter_eq_self]
      intro e member
      simpa using without e.1 (List.mem_map_of_mem member)
    rw [stripAuthoringKeys, stripFields_eq, all]
    congr 1
    conv_rhs => rw [← List.map_id fields]
    refine List.map_congr_left fun e member => ?_
    rw [ih e member]
    rfl
  | _ => rfl

theorem sameShape_stripAuthoringKeys (j : Json) : SameShape j (stripAuthoringKeys j) := by
  cases j with
  | array items =>
    change (stripItems items).length = items.length
    rw [stripItems_eq, List.length_map]
  | object fields => exact keys_stripFields fields
  | _ => rfl

variable {j out : Json} {place : List Edge} {edge : Edge}

/-- One step that takes no authoring key. -/
theorem child?_stripAuthoringKeys (other : ∀ key ∈ authoringKeys, edge ≠ .key key) (j : Json) :
    (stripAuthoringKeys j).child? edge = (j.child? edge).map stripAuthoringKeys := by
  cases j with
  | array items =>
    cases edge with
    | key name => rfl
    | item i =>
      rw [stripAuthoringKeys, stripItems_eq]
      exact List.getElem?_map
  | object fields =>
    cases edge with
    | key name =>
      have entry := get?_stripFields fields name
      rwa [if_neg fun authoring => other name authoring rfl] at entry
    | item i => rfl
  | _ => cases edge <;> rfl

theorem unmarked_cons : Unmarked (edge :: place) ↔
    (∀ key ∈ authoringKeys, edge ≠ .key key) ∧ Unmarked place := by
  simp only [Unmarked, List.mem_cons, not_or, ← forall_and, eq_comm, ne_eq]

theorem at?_stripAuthoringKeys (unmarked : Unmarked place) (j : Json) :
    (stripAuthoringKeys j).at? place = (j.at? place).map stripAuthoringKeys := by
  induction place generalizing j with
  | nil => rfl
  | cons edge rest ih =>
    obtain ⟨other, unmarked⟩ := unmarked_cons.mp unmarked
    rw [Json.at?_cons, Json.at?_cons, child?_stripAuthoringKeys other]
    cases j.child? edge with
    | none => rfl
    | some k => exact ih unmarked k

theorem unmarked_of_lacks (h : out.Lacks authoringKeys) {node : Json}
    (found : out.at? place = some node) : Unmarked place := by
  induction place generalizing out with
  | nil => exact fun key _ => List.not_mem_nil
  | cons edge rest ih =>
    obtain ⟨k, first, later⟩ := Option.bind_eq_some_iff.mp found
    obtain ⟨below, other⟩ := h.child first
    exact unmarked_cons.mpr ⟨other, ih below later⟩

/-- What is gone was not there or stood under an authoring key. -/
theorem at?_stripAuthoringKeys_eq_none_iff (j : Json) (place : List Edge) :
    (stripAuthoringKeys j).at? place = none ↔ ¬ Unmarked place ∨ j.at? place = none := by
  by_cases unmarked : Unmarked place
  · rw [at?_stripAuthoringKeys unmarked, Option.map_eq_none_iff]
    simp [unmarked]
  · simp only [unmarked, not_false_eq_true, true_or, iff_true]
    by_contra there
    obtain ⟨node, found⟩ := Option.ne_none_iff_exists'.mp there
    exact unmarked (unmarked_of_lacks (lacks_stripAuthoringKeys j) found)

theorem stripped_stripAuthoringKeys (j : Json) : Stripped j (stripAuthoringKeys j) where
  lacks := lacks_stripAuthoringKeys j
  kept place node unmarked found := by
    refine ⟨stripAuthoringKeys node, ?_, sameShape_stripAuthoringKeys node⟩
    rw [at?_stripAuthoringKeys unmarked, found, Option.map_some]
  nothingNew place node' found := by
    have unmarked := unmarked_of_lacks (lacks_stripAuthoringKeys j) found
    rw [at?_stripAuthoringKeys unmarked, Option.map_eq_some_iff] at found
    obtain ⟨node, found, rfl⟩ := found
    exact ⟨unmarked, node, found, sameShape_stripAuthoringKeys node⟩

/-- What stands below a value and below its stripped form. -/
theorem Stripped.child {k k' : Json} (h : Stripped j out) (edge : Edge)
    (found : j.child? edge = some k)
    (found' : out.child? edge = some k') : Stripped k k' := by
  obtain ⟨below, other⟩ := h.lacks.child found'
  have before : ∀ place, j.at? (edge :: place) = k.at? place := by
    intro place
    rw [Json.at?_cons, found, Option.bind_some]
  have after : ∀ place, out.at? (edge :: place) = k'.at? place := by
    intro place
    rw [Json.at?_cons, found', Option.bind_some]
  refine ⟨below, fun place node unmarked stands => ?_, fun place node stands => ?_⟩
  · rw [← before] at stands
    rw [← after]
    exact h.kept _ node (unmarked_cons.mpr ⟨other, unmarked⟩) stands
  · rw [← after] at stands
    rw [← before]
    obtain ⟨unmarked, source⟩ := h.nothingNew _ node stands
    exact ⟨(unmarked_cons.mp unmarked).2, source⟩

theorem Stripped.shape (h : Stripped j out) : SameShape j out := by
  obtain ⟨_, ⟨⟩, shape⟩ := h.kept [] j (fun key _ => List.not_mem_nil) rfl
  exact shape

/-- There is one stripped form of a value without repeated keys. -/
theorem Stripped.eq (h : Stripped j out) (unrepeated : j.Unrepeated) :
    out = stripAuthoringKeys j := by
  have shape := h.shape
  induction unrepeated generalizing out with
  | @array items each ih =>
    cases out with
    | array items' =>
      rw [stripAuthoringKeys, stripItems_eq]
      congr 1
      refine List.ext_getElem (by rw [List.length_map]; exact shape) fun i inside' inside => ?_
      rw [List.length_map] at inside
      have below := h.child (.item i) (List.getElem?_eq_getElem inside)
        (List.getElem?_eq_getElem inside')
      rw [List.getElem_map]
      exact ih _ (List.getElem_mem inside) below below.shape
    | _ => cases shape
  | @object fields unique each ih =>
    cases out with
    | object fields' =>
      rw [stripAuthoringKeys]
      congr 1
      have keys : Table.keys fields' = Table.keys (stripFields fields) :=
        Eq.trans shape (keys_stripFields fields).symm
      refine Table.eq_of_keys keys ?_ fun entry member => ?_
      · rw [keys_stripFields]
        exact unique.filter _
      · have listed : entry.1 ∈ Table.keys fields' := keys ▸ List.mem_map_of_mem member
        obtain ⟨k', found'⟩ := Table.mem_keys_iff.mp listed
        rw [stripFields_eq] at member
        obtain ⟨e, place, rfl⟩ := List.mem_map.mp member
        have there := List.mem_of_mem_filter place
        have below := h.child (.key e.1) ((Table.get?_eq_some_iff unique).mpr there) found'
        rw [found', ih e there below below.shape]
    | _ => cases shape
  | _ => exact shape

/-- Stripping takes out all authoring keys and nothing else, and once is enough. -/
theorem stripAuthoringKeys_exact (j : Json) : Stripped j (stripAuthoringKeys j) ∧
    stripAuthoringKeys (stripAuthoringKeys j) = stripAuthoringKeys j :=
  ⟨stripped_stripAuthoringKeys j, stripAuthoringKeys_of_lacks (lacks_stripAuthoringKeys j)⟩

/-- All seven keys go, at every depth. What else begins with `x-` stays. -/
example : stripAuthoringKeys (.object [("x-controller", .null), ("x-tags", .array []),
    ("get", .array [.object [("x-db", .null), ("x-schema", .null),
      ("x-namespace", .string "pets")]]),
    ("x-public", .bool true), ("x-embeddable", .bool true), ("x-model", .string "Pet")]) =
    .object [("get", .array [.object [("x-namespace", .string "pets")]])] :=
  rfl

end Merge

end ApiGraph
