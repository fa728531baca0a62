import ApiGraph.Proofs.Table.Lookup
import Mathlib.Data.List.Dedup
import Mathlib.Data.List.Induction
import Mathlib.Data.List.Perm.Basic

/-! Tables up to the order of their entries, and tables that are sorted by key. With one entry for a
key, two tables have the same entries exactly if they have the same lookups; sorted tables with the
same keys have them in the same order. -/

namespace ApiGraph

/-- Of two different texts one comes first. -/
theorem eq_of_not_lt {a b : String} (first : ¬ a < b) (second : ¬ b < a) : a = b := by
  exact String.le_antisymm (String.not_lt.mp second) (String.not_lt.mp first)

namespace Table

variable {α β γ : Type _}

theorem get?_eq_of_perm {t t' : Table α} (unique : (keys t).Nodup) (same : t.Perm t')
    (key : String) : get? t key = get? t' key := by
  have unique' : (keys t').Nodup := (same.map Prod.fst).nodup_iff.mp unique
  apply Option.ext
  intro value
  rw [get?_eq_some_iff unique, get?_eq_some_iff unique', same.mem_iff]

theorem perm_of_get?_eq {t t' : Table α} (unique : (keys t).Nodup) (unique' : (keys t').Nodup)
    (same : ∀ key, get? t key = get? t' key) : t.Perm t' := by
  rw [List.perm_ext_iff_of_nodup (.of_map Prod.fst unique) (.of_map Prod.fst unique')]
  rintro ⟨key, value⟩
  rw [← get?_eq_some_iff unique, ← get?_eq_some_iff unique', same]

theorem get?_ofList (entries : Table α) (key : String) :
    get? (ofList entries) key = get? entries.reverse key := by
  rw [ofList, get?_insertAll, get?_nil, Option.or_none]

/-- Where no key stands twice, the order of the entries does not count. -/
theorem get?_reverse {t : Table α} (unique : (keys t).Nodup) (key : String) :
    get? t.reverse key = get? t key :=
  (get?_eq_of_perm unique (List.reverse_perm t).symm key).symm

/-- The entries with some of the values. -/
theorem get?_filter_values {t : Table α} (unique : (keys t).Nodup) (keep : α → Bool)
    (key : String) :
    get? (t.filter fun entry => keep entry.2) key = (get? t key).filter keep := by
  have unique' : (keys (t.filter fun entry => keep entry.2)).Nodup :=
    unique.sublist (List.filter_sublist.map Prod.fst)
  apply Option.ext
  intro value
  rw [get?_eq_some_iff unique', List.mem_filter, Option.filter_eq_some_iff, get?_eq_some_iff unique]

/-- The keys of entries that are put in one after the other stand in the order in which they first
come. -/
theorem keys_ofList (entries : Table α) : keys (ofList entries) = (keys entries).eraseDups := by
  induction entries using List.reverseRecOn with
  | nil => rfl
  | append_singleton entries entry ih =>
    have step : ofList (entries ++ [entry]) = insert (ofList entries) entry.1 entry.2 :=
      insertAll_append [] entries [entry]
    rw [step, keys_append, List.eraseDups_append, ← ih]
    by_cases old : entry.1 ∈ keys entries
    · have there : entry.1 ∈ keys (ofList entries) := by rwa [ih, List.mem_eraseDups]
      rw [keys_insert_of_mem there]
      simp [old, List.removeAll]
    · have absent : entry.1 ∉ keys (ofList entries) := by rwa [ih, List.mem_eraseDups]
      rw [keys_insert_of_not_mem absent]
      simp [old, List.removeAll, List.eraseDups_cons]

/-- Where entries with one key are the same, it does not matter which of them comes first. -/
theorem get?_eq_of_agree {t t' : Table α} (agree : ∀ e ∈ t, ∀ e' ∈ t, e.1 = e'.1 → e = e')
    (same : t.Perm t') (key : String) : get? t key = get? t' key := by
  have lookup : ∀ {t : Table α}, (∀ e ∈ t, ∀ e' ∈ t, e.1 = e'.1 → e = e') → ∀ value,
      get? t key = some value ↔ (key, value) ∈ t := by
    intro t agree value
    constructor
    · exact mem_of_get?_eq_some
    · intro member
      obtain ⟨first, found⟩ := mem_keys_iff.mp (List.mem_map.mpr ⟨_, member, rfl⟩ : key ∈ keys t)
      cases agree _ (mem_of_get?_eq_some found) _ member rfl
      exact found
  apply Option.ext
  intro value
  rw [lookup agree, lookup, same.mem_iff]
  intro e member e' member'
  exact agree e (same.mem_iff.mpr member) e' (same.mem_iff.mpr member')

/-- The same keys in some order, and under each of them values that are related. -/
structure Alike (related : α → β → Prop) (t : Table α) (t' : Table β) : Prop where
  keys : (Table.keys t).Perm (Table.keys t')
  values : ∀ {key value value'}, get? t key = some value → get? t' key = some value' →
    related value value'

theorem Alike.mono {related other : α → β → Prop} {t : Table α} {t' : Table β}
    (h : Alike related t t') (weaker : ∀ value value', related value value' → other value value') :
    Alike other t t' where
  keys := h.keys
  values found found' := weaker _ _ (h.values found found')

/-- Tables that are alike up to what a function drops are the same without it. -/
theorem Alike.map_perm {t t' : Table α} {f : α → γ}
    (h : Alike (fun value value' => f value = f value') t t') (unique : (Table.keys t).Nodup) :
    (t.map fun entry => (entry.1, f entry.2)).Perm (t'.map fun entry => (entry.1, f entry.2)) := by
  have unique' : (Table.keys t').Nodup := h.keys.nodup_iff.mp unique
  have lookup : ∀ (t : Table α) key,
      get? (t.map fun entry => (entry.1, f entry.2)) key = (get? t key).map f :=
    fun t key => get?_map (fun _ => f) t key
  apply perm_of_get?_eq
  · simpa [Table.keys, Function.comp_def] using unique
  · simpa [Table.keys, Function.comp_def] using unique'
  · intro key
    rw [lookup, lookup]
    cases found : get? t key with
    | none =>
      have absent : get? t' key = none := by
        rw [get?_eq_none_iff] at found ⊢
        exact fun member => found (h.keys.mem_iff.mpr member)
      rw [absent]
    | some value =>
      obtain ⟨value', found'⟩ := mem_keys_iff.mp (h.keys.mem_iff.mp (mem_keys_of_get? found))
      rw [found', Option.map_some, Option.map_some, h.values found found']

/-- The entries of a table by its keys. -/
theorem flatMap_eq_keys {t : Table α} (unique : (keys t).Nodup) (f : String × α → List γ) :
    t.flatMap f = (keys t).flatMap fun key =>
      ((get? t key).map fun value => f (key, value)).getD [] := by
  rw [keys, List.flatMap_map]
  apply List.flatMap_congr
  rintro ⟨key, value⟩ member
  rw [(get?_eq_some_iff unique).mpr member]
  rfl

/-- What is gathered from tables that are alike is the same up to its order. -/
theorem Alike.flatMap_perm {related : α → β → Prop} {t : Table α} {t' : Table β}
    (h : Alike related t t') (unique : (Table.keys t).Nodup) {f : String × α → List γ}
    {f' : String × β → List γ}
    (each : ∀ key value value', related value value' → (f (key, value)).Perm (f' (key, value'))) :
    (t.flatMap f).Perm (t'.flatMap f') := by
  have unique' : (Table.keys t').Nodup := h.keys.nodup_iff.mp unique
  rw [flatMap_eq_keys unique, flatMap_eq_keys unique']
  apply h.keys.flatMap
  intro key member
  obtain ⟨value, found⟩ := mem_keys_iff.mp member
  obtain ⟨value', found'⟩ := mem_keys_iff.mp (h.keys.mem_iff.mp member)
  rw [found, found']
  exact each key value value' (h.values found found')
/-! Tables sorted by key. -/

def Sorted (t : Table α) : Prop := (keys t).Pairwise (· < ·)

theorem get?_insertSorted (t : Table α) (name : String) (value : α) (key : String) :
    get? (insertSorted t name value) key = if name = key then some value else get? t key := by
  induction t with
  | nil => rw [insertSorted, get?_cons]
  | cons entry rest ih =>
    obtain ⟨first, old⟩ := entry
    rw [insertSorted]
    split
    · subst first
      rw [get?_cons, get?_cons]
      split
      · rfl
      · rfl
    · split
      · rw [get?_cons]
      · rename_i other _
        rw [get?_cons, ih, get?_cons]
        by_cases same : first = key
        · rw [if_pos same, if_pos same, if_neg]
          exact fun clash => other (same.trans clash.symm)
        · rw [if_neg same, if_neg same]

theorem mem_keys_insertSorted {t : Table α} {name key : String} {value : α} :
    key ∈ keys (insertSorted t name value) ↔ key ∈ keys t ∨ key = name := by
  rw [mem_keys_iff, get?_insertSorted, mem_keys_iff]
  by_cases same : name = key
  · simp [same]
  · simp [same, Ne.symm same]

theorem sorted_insertSorted {t : Table α} (h : Sorted t) (name : String) (value : α) :
    Sorted (insertSorted t name value) := by
  induction t with
  | nil => simp [insertSorted, Sorted, keys]
  | cons entry rest ih =>
    obtain ⟨first, old⟩ := entry
    have h : (first :: keys rest).Pairwise (· < ·) := h
    obtain ⟨least, sorted⟩ := List.pairwise_cons.mp h
    rw [insertSorted]
    split
    · exact h
    · split
      · rename_i before
        refine List.pairwise_cons.mpr ⟨?_, h⟩
        intro key member
        rcases List.mem_cons.mp member with rfl | later
        · exact before
        · exact String.lt_trans before (least key later)
      · rename_i other notBefore
        refine List.pairwise_cons.mpr ⟨?_, ih sorted⟩
        intro key member
        rcases mem_keys_insertSorted.mp member with later | rfl
        · exact least key later
        · by_contra notAfter
          exact other (eq_of_not_lt notAfter notBefore)

theorem Sorted.nodup {t : Table α} (h : Sorted t) : (keys t).Nodup := by
  apply List.Pairwise.imp _ h
  rintro a b before rfl
  exact String.lt_irrefl a before

theorem keys_eq_of_sorted {t : Table α} {t' : Table β} (h : Sorted t) (h' : Sorted t')
    (same : ∀ key, key ∈ keys t ↔ key ∈ keys t') : keys t = keys t' := by
  have perm := (List.perm_ext_iff_of_nodup h.nodup h'.nodup).mpr same
  apply perm.eq_of_pairwise _ h h'
  exact fun a b _ _ first second => absurd second (String.lt_asymm first)

end Table

end ApiGraph
