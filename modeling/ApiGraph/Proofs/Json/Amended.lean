import ApiGraph.Proofs.Merge.Definitions
import Mathlib.Data.Nat.Digits.Defs

/-! Values that are changed at one place. The place is the keys on the way to it, and a way that
leads elsewhere leads to the same value before and after (`follow_amendPath_of_apart`). Above the
place the change is seen only if the key that leads on to it is read there
(`lookup_amendPath`). -/

namespace ApiGraph

open Record (Resembles)

namespace Json

namespace Pointer

/-! Places in an array. -/

/-- The digits of a place, the last one first. -/
def digitsOf (segment : List Char) : List Nat := (segment.map fun c => c.toNat - '0'.toNat).reverse

theorem foldl_eq_ofDigits (segment : List Char) :
    segment.foldl (fun n c => 10 * n + (c.toNat - '0'.toNat)) 0 =
      Nat.ofDigits 10 (digitsOf segment) := by
  rw [digitsOf, Nat.ofDigits_eq_foldr, List.foldr_reverse, List.foldl_map]
  simp [Nat.add_comm]

theorem toNat_of_isDigit {c : Char} (h : c.isDigit = true) :
    '0'.toNat ≤ c.toNat ∧ c.toNat ≤ '9'.toNat := by
  simpa [Char.isDigit, Char.le_def, UInt32.le_iff_toNat_le] using h

/-- The digits tell the segment. -/
theorem map_digitsOf {segment : List Char} (digits : ∀ c ∈ segment, c.isDigit = true) :
    (digitsOf segment).reverse.map (fun n => Char.ofNat (n + '0'.toNat)) = segment := by
  rw [digitsOf, List.reverse_reverse, List.map_map]
  conv_rhs => rw [← List.map_id segment]
  apply List.map_congr_left
  intro c member
  have lower := (toNat_of_isDigit (digits c member)).1
  change Char.ofNat (c.toNat - '0'.toNat + '0'.toNat) = c
  rw [Nat.sub_add_cancel lower, Char.ofNat_toNat]

/-- The digits of a place are those of its number, unless it is the first place. -/
theorem digits_of_index? {segment : List Char} {i : Nat} (h : index? segment = some i) :
    (∀ c ∈ segment, c.isDigit = true) ∧
      (segment = ['0'] ∧ i = 0 ∨ i ≠ 0 ∧ Nat.digits 10 i = digitsOf segment) := by
  rw [index?, foldl_eq_ofDigits] at h
  split at h
  · cases h
  · rename_i proper
    obtain ⟨filled, digits⟩ : segment ≠ [] ∧ ∀ c ∈ segment, c.isDigit = true := by
      simpa using proper
    split at h
    · cases h
    · rename_i noLeadingZero
      obtain rfl := Option.some.inj h
      refine ⟨digits, ?_⟩
      obtain ⟨first, rest, rfl⟩ := List.exists_cons_of_ne_nil filled
      by_cases zero : first = '0'
      · subst zero
        obtain rfl : rest = [] := by simpa using noLeadingZero
        exact Or.inl ⟨rfl, rfl⟩
      · have all : Nat.digits 10 (Nat.ofDigits 10 (digitsOf (first :: rest))) =
            digitsOf (first :: rest) := by
          apply Nat.digits_ofDigits 10 (by omega)
          · intro d member
            obtain ⟨c, isChar, rfl⟩ := List.mem_map.mp (List.mem_reverse.mp member)
            have := toNat_of_isDigit (digits c isChar)
            simp only [Char.reduceToNat] at this ⊢
            omega
          · intro _
            have := toNat_of_isDigit (digits first (by simp))
            have other : first.toNat ≠ '0'.toNat := fun same => zero (Char.toNat_inj.mp same)
            simp only [digitsOf, List.map_cons, List.reverse_cons, List.getLast_append_singleton]
            omega
        refine Or.inr ⟨fun none => ?_, all⟩
        rw [none, Nat.digits_zero] at all
        simp [digitsOf] at all

theorem index?_inj {a b : List Char} {i : Nat} (ha : index? a = some i) (hb : index? b = some i) :
    a = b := by
  obtain ⟨digits, first⟩ := digits_of_index? ha
  obtain ⟨digits', second⟩ := digits_of_index? hb
  rcases first with ⟨rfl, rfl⟩ | ⟨positive, first⟩
  · rcases second with ⟨rfl, _⟩ | ⟨positive, _⟩
    · rfl
    · exact absurd rfl positive
  · rcases second with ⟨_, zero⟩ | ⟨_, second⟩
    · exact absurd zero positive
    · rw [← map_digitsOf digits, ← first, second, map_digitsOf digits']

end Pointer

/-! Values that are changed at a place. -/

/-- The value with what stands at a place changed, if something stands there. -/
def amendPath (change : Json → Json) : List String → Json → Json
  | [], j => change j
  | key :: rest, .object fields => .object (Table.amend fields key (amendPath change rest))
  | key :: rest, .array items =>
    match Pointer.index? key.toList with
    | some i => .array (items.modify i (amendPath change rest))
    | none => .array items
  | _ :: _, j => j

variable {change : Json → Json} {place : List String} {segments : List (List Char)}

theorem step_amendPath (change : Json → Json) (key : String) (rest : List String) (j : Json)
    (segment : List Char) : Pointer.step (amendPath change (key :: rest) j) segment =
      if key = Pointer.keyOf segment then (Pointer.step j segment).map (amendPath change rest)
      else Pointer.step j segment := by
  cases j with
  | object fields => exact Table.get?_amend fields key (amendPath change rest) _
  | array items =>
    by_cases same : key = Pointer.keyOf segment
    · have index : Pointer.index? key.toList = Pointer.index? (Pointer.unescape segment) := by
        rw [same, Pointer.keyOf, String.toList_ofList]
      rw [if_pos same, amendPath, index]
      cases here : Pointer.index? (Pointer.unescape segment) with
      | none => simp [Pointer.step, here]
      | some i => simp [Pointer.step, here, List.getElem?_modify]
    · rw [if_neg same, amendPath]
      cases index : Pointer.index? key.toList with
      | none => rfl
      | some i =>
        cases here : Pointer.index? (Pointer.unescape segment) with
        | none => simp [Pointer.step, here]
        | some k =>
          have other : i ≠ k := by
            rintro rfl
            apply same
            rw [Pointer.keyOf, ← Pointer.index?_inj index here, String.ofList_toList]
          simp [Pointer.step, here, List.getElem?_modify, other]
  | _ => simp [amendPath, Pointer.step]

/-- A way to the place, or not so far, leads to what is changed there or below. -/
theorem follow_amendPath (rest : List String) (way : segments.map Pointer.keyOf ++ rest = place)
    (j : Json) : (amendPath change place j).follow segments =
      (j.follow segments).map (amendPath change rest) := by
  induction segments generalizing j place with
  | nil =>
    obtain rfl : rest = place := way
    rfl
  | cons segment segments ih =>
    subst way
    rw [follow_cons, follow_cons, List.map_cons, List.cons_append, step_amendPath, if_pos rfl]
    cases Pointer.step j segment with
    | none => rfl
    | some next => exact ih rfl next

/-- A way that leads elsewhere leads to the same. -/
theorem follow_amendPath_of_apart (before : ¬ segments.map Pointer.keyOf <+: place)
    (after : ¬ place <+: segments.map Pointer.keyOf) (j : Json) :
    (amendPath change place j).follow segments = j.follow segments := by
  induction segments generalizing j place with
  | nil => exact absurd (List.nil_prefix) before
  | cons segment segments ih =>
    cases place with
    | nil => exact absurd (List.nil_prefix) after
    | cons key rest =>
      rw [follow_cons, follow_cons, step_amendPath]
      split
      · rename_i same
        subst same
        rw [List.map_cons, List.cons_prefix_cons] at before after
        cases Pointer.step j segment with
        | none => rfl
        | some next =>
          exact ih (fun h => before ⟨rfl, h⟩) (fun h => after ⟨rfl, h⟩) next
      · rfl

theorem isObject_amendPath (change : Json → Json) (key : String) (rest : List String) {j : Json} :
    (amendPath change (key :: rest) j).isObject = j.isObject := by
  cases j with
  | array items =>
    rw [amendPath]
    split <;> rfl
  | _ => rfl

/-- A change of what is no field is not seen where a record is read. -/
theorem resembles_amendPath {fields : List String} {name : String} {rest : List String} {j : Json}
    (shape : j.isObject = true) (notField : name ∉ fields) :
    Resembles fields j (amendPath change (name :: rest) j) := by
  cases j with
  | object entries =>
    rw [amendPath, Table.amend]
    split
    · exact Merge.resembles_insert notField entries _
    · exact .same _
  | _ => cases shape

end Json

/-- What stands at a place is read where the fragment leads: it leads there or below, or to a value
that is read at the key which leads on to the place. -/
def Fragment.Reads (document : Json) (fields place : List String) (f : Fragment) : Prop :=
  place <+: f.keys ∨ ∃ name rest node, place = f.keys ++ name :: rest ∧
    f.lookup document = some node ∧ (node.isObject = true → name ∈ fields)

/-- A fragment that leads elsewhere reads nothing there. -/
theorem Fragment.not_reads_of_apart {document : Json} {fields place : List String} {f : Fragment}
    (before : ¬ f.keys <+: place) (after : ¬ place <+: f.keys) : ¬ f.Reads document fields place := by
  rintro (below | ⟨name, rest, node, way, _⟩)
  · exact after below
  · exact before ⟨name :: rest, way.symm⟩

namespace Json

variable {document : Json} {fields : List String} {f : Fragment}

/-- A change at a place is not seen where it is not read. -/
theorem lookup_amendPath (written : f.Written) (shape : document.isObject = true)
    (outside : ¬ place <+: f.keys) (unread : ¬ f.Reads document fields place) :
    Option.Rel (Resembles fields) (f.lookup document)
      (f.lookup (amendPath change place document)) := by
  cases place with
  | nil => exact absurd List.nil_prefix outside
  | cons key rest =>
    have after := (isObject_amendPath change key rest).trans shape
    rw [Fragment.lookup_eq_follow written shape, Fragment.lookup_eq_follow written after]
    by_cases above : f.keys <+: key :: rest
    · obtain ⟨below, way⟩ := above
      rw [follow_amendPath below way]
      cases found : document.follow f.segments with
      | none => exact .none
      | some node =>
        cases below with
        | nil => exact absurd ⟨[], by rw [← way, List.append_nil, List.append_nil]⟩ outside
        | cons name below =>
          refine .some ?_
          have there : f.lookup document = some node :=
            (Fragment.lookup_eq_follow written shape).trans found
          by_contra unlike
          refine unread (Or.inr ⟨name, below, node, way.symm, there, fun isObject => ?_⟩)
          by_contra notField
          exact unlike (resembles_amendPath isObject notField)
    · rw [follow_amendPath_of_apart above outside]
      exact Resembles.rel_refl fields _

/-! Objects of which one entry is changed. -/

/-- A change of an object that keeps all entries but those under one key. -/
def KeepsBut (key : String) (alter : Table Json → Table Json) : Prop :=
  ∀ t, (alter t).filter (fun entry => entry.1 ≠ key) = t.filter fun entry => entry.1 ≠ key

variable {alter : Table Json → Table Json} {key : String}

theorem KeepsBut.filter (keeps : KeepsBut key alter) (keep : String → Bool)
    (other : keep key = false) (t : Table Json) :
    (alter t).filter (fun entry => keep entry.1) = t.filter fun entry => keep entry.1 := by
  have both : ∀ t : Table Json, t.filter (fun entry => keep entry.1) =
      (t.filter fun entry => entry.1 ≠ key).filter fun entry => keep entry.1 := by
    intro t
    rw [List.filter_filter]
    apply List.filter_congr
    intro entry _
    by_cases same : entry.1 = key
    · simp [same, other]
    · simp [same]
  rw [both, keeps, ← both]

theorem KeepsBut.get? (keeps : KeepsBut key alter) {name : String} (other : name ≠ key)
    (t : Table Json) : Table.get? (alter t) name = Table.get? t name := by
  have held : ∀ t : Table Json,
      Table.get? (t.filter fun entry => entry.1 ≠ key) name = Table.get? t name := by
    intro t
    have law := Table.get?_filter (fun name => decide (name ≠ key)) t name
    rwa [if_pos (by simpa using other)] at law
  rw [← held, keeps, held]

theorem KeepsBut.resembles (keeps : KeepsBut key alter) (notField : key ∉ fields)
    (j : Json) : Resembles fields j (amendFields alter j) := by
  cases j with
  | object entries =>
    have kept := keeps.filter (fun name => decide (name ∈ fields)) (by simpa using notField)
    refine .object (.of_eq (kept entries).symm) ?_
    exact fun name isField => keeps.get? (fun same => notField (same ▸ isField)) entries
  | _ => exact .same _

theorem keepsBut_insert (key : String) (value : Json) :
    KeepsBut key fun t => Table.insert t key value :=
  fun t => @Table.filter_insert _ (fun name => decide (name ≠ key)) key (by simp) t value

theorem keepsBut_erase (key : String) : KeepsBut key (·.filter fun entry => entry.1 ≠ key) := by
  intro t
  rw [List.filter_filter]
  simp

theorem KeepsBut.step (keeps : KeepsBut key alter) {segment : List Char}
    (other : Pointer.keyOf segment ≠ key) (j : Json) :
    Pointer.step (amendFields alter j) segment = Pointer.step j segment := by
  cases j with
  | object entries => exact keeps.get? other entries
  | _ => rfl

/-- A change of one entry is not seen where the entry is not read. -/
theorem lookup_amendEntry (keeps : KeepsBut key alter) (written : f.Written)
    (shape : document.isObject = true) (filled : place ≠ [])
    (unread : ¬ f.Reads document fields (place ++ [key])) :
    Option.Rel (Resembles fields) (f.lookup document)
      (f.lookup (amendPath (amendFields alter) place document)) := by
  by_cases inside : place <+: f.keys
  · obtain ⟨rest, way⟩ := inside
    obtain ⟨segments, others, split, isPlace, isRest⟩ := List.map_eq_append_iff.mp way.symm
    have after : (amendPath (amendFields alter) place document).isObject = true := by
      obtain ⟨first, rest, rfl⟩ := List.exists_cons_of_ne_nil filled
      exact (isObject_amendPath _ first rest).trans shape
    have reached := @follow_amendPath (amendFields alter) place segments []
      (by simpa using isPlace) document
    rw [Fragment.lookup_eq_follow written shape, Fragment.lookup_eq_follow written after, split,
      follow_append, follow_append, reached]
    cases found : document.follow segments with
    | none => exact .none
    | some node =>
      simp only [Option.map_some, Option.bind_some, amendPath]
      cases others with
      | nil =>
        refine .some (keeps.resembles (fun isField => unread ?_) node)
        have there : f.lookup document = some node := by
          rw [Fragment.lookup_eq_follow written shape, split, List.append_nil, found]
        refine Or.inr ⟨key, [], node, ?_, there, fun _ => isField⟩
        rw [Fragment.keys, split, List.append_nil, isPlace]
      | cons segment others =>
        have other : Pointer.keyOf segment ≠ key := by
          rintro rfl
          refine unread (Or.inl ⟨others.map Pointer.keyOf, ?_⟩)
          rw [Fragment.keys, split, List.map_append, isPlace, List.map_cons, List.append_assoc]
          rfl
        rw [follow_cons, follow_cons, keeps.step other]
        exact Resembles.rel_refl fields _
  · refine lookup_amendPath written shape inside fun reads => unread ?_
    rcases reads with below | ⟨name, rest, node, way, found, isRead⟩
    · exact absurd below inside
    · exact Or.inr ⟨name, rest ++ [key], node, by simp [way], found, isRead⟩

end Json

end ApiGraph
