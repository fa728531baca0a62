import ApiGraph.Table

/-! What tables hold after each of their operations. A lookup sees the first entry of a key, so
the laws hold for any list of entries, repeated keys included, unless they say otherwise. -/

namespace ApiGraph.Table

variable {α β : Type _}

@[simp] theorem get?_nil (key : String) : get? ([] : Table α) key = none := rfl

theorem get?_cons (name : String) (value : α) (rest : Table α) (key : String) :
    get? ((name, value) :: rest) key = if name = key then some value else get? rest key := rfl

@[simp] theorem get?_cons_self (name : String) (value : α) (rest : Table α) :
    get? ((name, value) :: rest) name = some value := by
  simp [get?_cons]

theorem get?_cons_ne {name key : String} (h : name ≠ key) (value : α) (rest : Table α) :
    get? ((name, value) :: rest) key = get? rest key := by
  simp [get?_cons, h]

@[simp] theorem keys_nil : keys ([] : Table α) = [] := rfl

@[simp] theorem keys_cons (entry : String × α) (rest : Table α) :
    keys (entry :: rest) = entry.1 :: keys rest := rfl

@[simp] theorem keys_append (s t : Table α) : keys (s ++ t) = keys s ++ keys t := by
  simp [keys]

theorem get?_append (s t : Table α) (key : String) :
    get? (s ++ t) key = (get? s key).or (get? t key) := by
  induction s with
  | nil => rfl
  | cons entry rest ih =>
    obtain ⟨name, value⟩ := entry
    by_cases same : name = key
    · simp [same]
    · simp [get?_cons_ne same, ih]

theorem get?_insert (t : Table α) (name : String) (value : α) (key : String) :
    get? (insert t name value) key = if name = key then some value else get? t key := by
  induction t with
  | nil => rfl
  | cons entry rest ih =>
    obtain ⟨other, old⟩ := entry
    simp only [insert]
    by_cases here : other = name
    · subst other
      by_cases same : name = key <;> simp [get?_cons, same]
    · by_cases same : other = key
      · subst key
        simp [here, Ne.symm here]
      · simp [here, get?_cons_ne same, ih]

@[simp] theorem get?_insert_self (t : Table α) (name : String) (value : α) :
    get? (insert t name value) name = some value := by
  simp [get?_insert]

theorem get?_insert_ne {name key : String} (h : name ≠ key) (t : Table α) (value : α) :
    get? (insert t name value) key = get? t key := by
  simp [get?_insert, h]

theorem mem_of_get?_eq_some {t : Table α} {key : String} {value : α}
    (h : get? t key = some value) : (key, value) ∈ t := by
  induction t with
  | nil => cases h
  | cons entry rest ih =>
    obtain ⟨name, first⟩ := entry
    by_cases same : name = key
    · subst key
      simp only [get?_cons_self, Option.some.injEq] at h
      simp [h]
    · rw [get?_cons_ne same] at h
      exact List.mem_cons_of_mem _ (ih h)

theorem get?_eq_none_iff {t : Table α} {key : String} : get? t key = none ↔ key ∉ keys t := by
  induction t with
  | nil => simp
  | cons entry rest ih =>
    obtain ⟨name, value⟩ := entry
    by_cases same : name = key
    · simp [same]
    · simp [get?_cons_ne same, ih, Ne.symm same]

theorem mem_keys_iff {t : Table α} {key : String} :
    key ∈ keys t ↔ ∃ value, get? t key = some value := by
  constructor
  · intro member
    cases found : get? t key with
    | none => exact absurd member (get?_eq_none_iff.mp found)
    | some value => exact ⟨value, rfl⟩
  · rintro ⟨value, found⟩
    exact List.mem_map.mpr ⟨_, mem_of_get?_eq_some found, rfl⟩

theorem mem_keys_of_get? {t : Table α} {key : String} {value : α}
    (h : get? t key = some value) : key ∈ keys t := mem_keys_iff.mpr ⟨value, h⟩

/-- With keys that do not repeat, membership and lookup are the same. -/
theorem get?_eq_some_iff {t : Table α} (unique : (keys t).Nodup) {key : String} {value : α} :
    get? t key = some value ↔ (key, value) ∈ t := by
  refine ⟨mem_of_get?_eq_some, ?_⟩
  intro member
  induction t with
  | nil => cases member
  | cons entry rest ih =>
    obtain ⟨name, first⟩ := entry
    obtain ⟨absent, unique⟩ := List.nodup_cons.mp unique
    rcases List.mem_cons.mp member with same | later
    · cases same
      simp
    · have other : name ≠ key := by
        rintro rfl
        exact absent (List.mem_map.mpr ⟨_, later, rfl⟩)
      rw [get?_cons_ne other]
      exact ih unique later

theorem contains_iff {t : Table α} {key : String} : t.contains key = true ↔ key ∈ keys t := by
  rw [mem_keys_iff, ← Option.isSome_iff_exists]
  rfl

/-! Keys. -/

theorem insert_of_not_mem {t : Table α} {name : String} (h : name ∉ keys t) (value : α) :
    insert t name value = t ++ [(name, value)] := by
  induction t with
  | nil => rfl
  | cons entry rest ih =>
    obtain ⟨other, old⟩ := entry
    simp only [keys_cons, List.mem_cons, not_or] at h
    simp [insert, Ne.symm h.1, ih h.2]

/-- A value takes the place of the first one with its key. -/
theorem insert_append_cons {before after : Table α} {name : String} (first : name ∉ keys before)
    (old value : α) :
    insert (before ++ (name, old) :: after) name value = before ++ (name, value) :: after := by
  induction before with
  | nil => simp [insert]
  | cons entry rest ih =>
    obtain ⟨other, _⟩ := entry
    simp only [keys_cons, List.mem_cons, not_or] at first
    simp [insert, Ne.symm first.1, ih first.2]

theorem keys_insert_of_mem {t : Table α} {name : String} (h : name ∈ keys t) (value : α) :
    keys (insert t name value) = keys t := by
  induction t with
  | nil => cases h
  | cons entry rest ih =>
    obtain ⟨other, old⟩ := entry
    by_cases here : other = name
    · simp [insert, here]
    · have later : name ∈ keys rest := by
        simpa [Ne.symm here] using h
      simp [insert, here, ih later]

theorem keys_insert_of_not_mem {t : Table α} {name : String} (h : name ∉ keys t) (value : α) :
    keys (insert t name value) = keys t ++ [name] := by
  simp [insert_of_not_mem h]

theorem mem_keys_insert (t : Table α) (name : String) (value : α) (key : String) :
    key ∈ keys (insert t name value) ↔ key = name ∨ key ∈ keys t := by
  by_cases held : name ∈ keys t
  · rw [keys_insert_of_mem held]
    refine ⟨Or.inr, ?_⟩
    rintro (rfl | member)
    · exact held
    · exact member
  · rw [keys_insert_of_not_mem held, List.mem_append, List.mem_singleton, or_comm]

theorem keys_insert_nodup {t : Table α} (h : (keys t).Nodup) (name : String) (value : α) :
    (keys (insert t name value)).Nodup := by
  by_cases present : name ∈ keys t
  · rwa [keys_insert_of_mem present]
  · rw [keys_insert_of_not_mem present, List.nodup_append]
    refine ⟨h, by simp, ?_⟩
    rintro key member other single rfl
    exact present (by simpa using List.mem_singleton.mp single ▸ member)

/-- Two tables with the same keys, none of them twice, are the same if their values are. -/
theorem eq_of_keys {s t : Table α} (same : keys s = keys t) (unique : (keys t).Nodup)
    (values : ∀ entry ∈ t, get? s entry.1 = some entry.2) : s = t := by
  induction t generalizing s with
  | nil => simpa [keys] using same
  | cons entry rest ih =>
    obtain ⟨name, value⟩ := entry
    cases s with
    | nil => cases same
    | cons other others =>
      obtain ⟨name', value'⟩ := other
      simp only [keys_cons, List.cons.injEq] at same
      obtain ⟨rfl, same⟩ := same
      obtain ⟨absent, others⟩ := List.nodup_cons.mp unique
      have first := values (name', value) (by simp)
      simp only [get?_cons_self, Option.some.injEq] at first
      subst first
      congr 1
      apply ih same others
      intro entry member
      have other : name' ≠ entry.1 := by
        rintro rfl
        exact absent (List.mem_map.mpr ⟨entry, member, rfl⟩)
      have value := values entry (by simp [member])
      rwa [get?_cons_ne other] at value

/-! Values that are changed one by one. -/

theorem get?_map (f : String → α → β) (t : Table α) (key : String) :
    get? (t.map fun entry => (entry.1, f entry.1 entry.2)) key = (get? t key).map (f key) := by
  induction t with
  | nil => rfl
  | cons entry rest ih =>
    obtain ⟨name, value⟩ := entry
    by_cases same : name = key
    · simp [same]
    · simp only [List.map_cons]
      rw [get?_cons_ne same, get?_cons_ne same, ih]

/-- The value at a key is changed, if the key is there. -/
def amend (t : Table α) (name : String) (change : α → α) : Table α :=
  match t.get? name with
  | some value => t.insert name (change value)
  | none => t

theorem get?_amend (t : Table α) (name : String) (change : α → α) (key : String) :
    get? (amend t name change) key =
      if name = key then (get? t key).map change else get? t key := by
  rw [amend]
  cases found : get? t name with
  | none =>
    by_cases same : name = key
    · subst key
      simp [found]
    · simp [same]
  | some value =>
    rw [get?_insert]
    by_cases same : name = key
    · subst key
      simp [found]
    · simp [same]

@[simp] theorem keys_amend (t : Table α) (name : String) (change : α → α) :
    keys (amend t name change) = keys t := by
  rw [amend]
  split
  · exact keys_insert_of_mem (mem_keys_of_get? ‹_›) _
  · rfl

theorem insert_of_get? {t : Table α} {name : String} {value : α}
    (h : get? t name = some value) : insert t name value = t := by
  induction t with
  | nil => cases h
  | cons entry rest ih =>
    obtain ⟨other, old⟩ := entry
    by_cases here : other = name
    · subst other
      rw [get?_cons_self] at h
      simp [insert, Option.some.inj h]
    · rw [get?_cons_ne here] at h
      simp [insert, here, ih h]

theorem amend_id (t : Table α) (name : String) : amend t name id = t := by
  rw [amend]
  split
  · exact insert_of_get? ‹_›
  · rfl

theorem keys_map (f : String → α → β) (t : Table α) :
    keys (List.map (fun entry => (entry.1, f entry.1 entry.2)) t) = keys t := by
  simp [keys]

/-- With one value for a key, a change at the key goes over all entries. -/
theorem amend_eq_map {t : Table α} (unique : (keys t).Nodup) (name : String)
    (change : α → α) : amend t name change =
      t.map fun entry => (entry.1, if entry.1 = name then change entry.2 else entry.2) := by
  have mapped := keys_map (fun key value => if key = name then change value else value) t
  apply eq_of_keys (by rw [keys_amend, mapped]) (by rw [mapped]; exact unique)
  intro entry member
  have there := (get?_eq_some_iff (mapped ▸ unique)).mpr member
  rw [get?_map fun key value => if key = name then change value else value] at there
  rw [get?_amend, ← there]
  by_cases same : name = entry.1
  · simp [same]
  · simp [same, Ne.symm same]

theorem keys_erase_sublist (t : Table α) (name : String) :
    (keys (erase t name)).Sublist (keys t) := by
  induction t with
  | nil => exact List.Sublist.refl _
  | cons entry rest ih =>
    obtain ⟨other, value⟩ := entry
    simp only [erase]
    split
    · exact List.sublist_cons_self _ _
    · exact ih.cons_cons _

theorem mem_keys_erase_of_ne {t : Table α} {name key : String} (other : key ≠ name)
    (there : key ∈ keys t) : key ∈ keys (erase t name) := by
  induction t with
  | nil => exact there
  | cons entry rest ih =>
    obtain ⟨first, value⟩ := entry
    simp only [erase]
    rcases List.mem_cons.mp there with rfl | later
    · rw [if_neg other]
      exact List.mem_cons_self
    · split
      · exact later
      · exact List.mem_cons_of_mem _ (ih later)

theorem get?_erase {t : Table α} (unique : (keys t).Nodup) (name key : String) :
    get? (erase t name) key = if name = key then none else get? t key := by
  induction t with
  | nil => simp [erase]
  | cons entry rest ih =>
    obtain ⟨other, value⟩ := entry
    obtain ⟨absent, unique⟩ := List.nodup_cons.mp unique
    simp only [erase]
    by_cases here : other = name
    · subst other
      rw [if_pos rfl]
      by_cases same : name = key
      · subst key
        rw [if_pos rfl]
        exact get?_eq_none_iff.mpr absent
      · rw [if_neg same, get?_cons_ne same]
    · rw [if_neg here, get?_cons, get?_cons, ih unique]
      by_cases first : other = key
      · subst key
        simp [Ne.symm here]
      · simp [first]

/-! `insertNew`, once and over a whole list of entries. -/

theorem get?_insertNew (t : Table α) (name : String) (value : α) (key : String) :
    get? (insertNew t name value) key =
      (get? t key).or (if name = key then some value else none) := by
  simp only [insertNew]
  by_cases present : t.contains name = true
  · rw [if_pos present]
    by_cases same : name = key
    · subst key
      obtain ⟨old, found⟩ := mem_keys_iff.mp (contains_iff.mp present)
      simp [found]
    · simp [same]
  · rw [if_neg present, get?_insert]
    have absent : get? t name = none := by
      rw [get?_eq_none_iff, ← contains_iff]
      exact present
    by_cases same : name = key
    · subst key
      simp [absent]
    · simp [same]

theorem keys_insertNew_nodup {t : Table α} (unique : (keys t).Nodup) (name : String) (value : α) :
    (keys (insertNew t name value)).Nodup := by
  rw [insertNew]
  split
  · exact unique
  · exact keys_insert_nodup unique name value

/-- The entries of a list put behind those of a table, which keep their values. -/
def addAll (t : Table α) (added : Table α) : Table α :=
  added.foldl (fun t entry => insertNew t entry.1 entry.2) t

theorem get?_addAll (t added : Table α) (key : String) :
    get? (addAll t added) key = (get? t key).or (get? added key) := by
  induction added generalizing t with
  | nil => simp [addAll]
  | cons entry rest ih =>
    obtain ⟨name, value⟩ := entry
    have step := ih (insertNew t name value)
    simp only [addAll, List.foldl_cons] at step ⊢
    rw [step, get?_insertNew, Option.or_assoc]
    by_cases same : name = key <;> simp [get?_cons, same]

theorem keys_addAll_nodup {t : Table α} (unique : (keys t).Nodup) (added : Table α) :
    (keys (addAll t added)).Nodup := by
  induction added generalizing t with
  | nil => exact unique
  | cons entry rest ih => exact ih (keys_insertNew_nodup unique _ _)

/-- New entries with names that are neither there nor repeated go to the end as they are. -/
theorem addAll_of_disjoint {t added : Table α} (unique : (keys added).Nodup)
    (fresh : ∀ key ∈ keys added, key ∉ keys t) : addAll t added = t ++ added := by
  induction added generalizing t with
  | nil => simp [addAll]
  | cons entry rest ih =>
    obtain ⟨name, value⟩ := entry
    obtain ⟨single, unique⟩ := List.nodup_cons.mp unique
    have absent : name ∉ keys t := fresh name (by simp)
    have first : insertNew t name value = t ++ [(name, value)] := by
      have missing : ¬ t.contains name = true := fun h => absent (contains_iff.mp h)
      rw [insertNew, if_neg missing, insert_of_not_mem absent]
    have later : ∀ key ∈ keys rest, key ∉ keys (t ++ [(name, value)]) := by
      intro key member
      have other : key ≠ name := by
        rintro rfl
        exact single member
      simp [other, fresh key (by simp [member])]
    have step := ih unique later
    simp only [addAll, List.foldl_cons] at step ⊢
    rw [first, step]
    simp

/-- Entries with keys that are neither there nor repeated are put in as they are. -/
theorem insertAll_of_disjoint {t entries : Table α} (unique : (keys entries).Nodup)
    (fresh : ∀ key ∈ keys entries, key ∉ keys t) : insertAll t entries = t ++ entries := by
  induction entries generalizing t with
  | nil => simp [insertAll]
  | cons entry rest ih =>
    obtain ⟨name, value⟩ := entry
    obtain ⟨single, unique⟩ := List.nodup_cons.mp unique
    have first := insert_of_not_mem (fresh name (by simp)) value
    have later : ∀ key ∈ keys rest, key ∉ keys (t ++ [(name, value)]) := by
      intro key member
      have other : key ≠ name := by
        rintro rfl
        exact single member
      simp [other, fresh key (by simp [member])]
    have step := ih unique later
    simp only [insertAll, List.foldl_cons] at step ⊢
    rw [first, step]
    simp

/-! Entries. -/

theorem keys_insertAll_nodup {t : Table α} (unique : (keys t).Nodup) (entries : Table α) :
    (keys (insertAll t entries)).Nodup := by
  induction entries generalizing t with
  | nil => exact unique
  | cons entry rest ih => exact ih (keys_insert_nodup unique _ _)

theorem keys_ofList_nodup (entries : Table α) : (keys (ofList entries)).Nodup :=
  keys_insertAll_nodup (by simp) entries

theorem mem_insert {t : Table α} {name : String} {value : α} {entry : String × α}
    (h : entry ∈ insert t name value) : entry ∈ t ∨ entry = (name, value) := by
  induction t with
  | nil => exact Or.inr (List.mem_singleton.mp h)
  | cons first rest ih =>
    obtain ⟨other, old⟩ := first
    rw [insert] at h
    split at h
    · rename_i same
      subst other
      rcases List.mem_cons.mp h with rfl | later
      · exact Or.inr rfl
      · exact Or.inl (by simp [later])
    · rcases List.mem_cons.mp h with rfl | later
      · exact Or.inl (by simp)
      · exact (ih later).imp (by simp +contextual) id

theorem mem_insertAll {t entries : Table α} {entry : String × α}
    (h : entry ∈ insertAll t entries) : entry ∈ t ∨ entry ∈ entries := by
  induction entries generalizing t with
  | nil => exact Or.inl h
  | cons first rest ih =>
    rcases ih h with inserted | later
    · exact (mem_insert inserted).imp id (by simp +contextual)
    · exact Or.inr (by simp [later])

/-- A table made of entries has no others. -/
theorem mem_ofList {entries : Table α} {entry : String × α} (h : entry ∈ ofList entries) :
    entry ∈ entries := by
  rcases mem_insertAll h with nothing | member
  · cases nothing
  · exact member

theorem insertAll_append (t entries more : Table α) :
    insertAll t (entries ++ more) = insertAll (insertAll t entries) more := List.foldl_append

/-- Under each key stands the last entry that was put in, if there is one. -/
theorem get?_insertAll (t entries : Table α) (key : String) :
    get? (insertAll t entries) key = (get? entries.reverse key).or (get? t key) := by
  induction entries generalizing t with
  | nil => rfl
  | cons entry rest ih =>
    obtain ⟨name, value⟩ := entry
    have step := ih (insert t name value)
    rw [insertAll] at step
    rw [insertAll, List.foldl_cons, step, List.reverse_cons, get?_append, Option.or_assoc,
      get?_insert]
    by_cases same : name = key
    · simp [same]
    · simp [same, get?_cons_ne same]

theorem get?_eq_some_iff_append {t : Table α} {key : String} {value : α} :
    get? t key = some value ↔
      ∃ before after, t = before ++ (key, value) :: after ∧ key ∉ keys before := by
  induction t with
  | nil => simp
  | cons entry rest ih =>
    obtain ⟨name, first⟩ := entry
    by_cases same : name = key
    · subst name
      rw [get?_cons_self, Option.some.injEq]
      constructor
      · rintro rfl
        exact ⟨[], rest, rfl, by simp⟩
      · rintro ⟨before, after, split, absent⟩
        cases before with
        | nil => exact (Prod.mk.inj (List.cons.inj split).1).2
        | cons other others =>
          obtain ⟨rfl, _⟩ := List.cons.inj split
          exact absurd absent (by simp)
    · rw [get?_cons_ne same, ih]
      constructor
      · rintro ⟨before, after, rfl, absent⟩
        exact ⟨(name, first) :: before, after, rfl, by simp [absent, Ne.symm same]⟩
      · rintro ⟨before, after, split, absent⟩
        cases before with
        | nil => exact absurd (Prod.mk.inj (List.cons.inj split).1).1 same
        | cons other others =>
          obtain ⟨rfl, rfl⟩ := List.cons.inj split
          exact ⟨others, after, rfl, fun member => absent (by simp [member])⟩

/-- A table made of entries has the last one of each key. -/
theorem mem_ofList_iff {entries : Table α} {key : String} {value : α} :
    (key, value) ∈ ofList entries ↔
      ∃ before after, entries = before ++ (key, value) :: after ∧ key ∉ keys after := by
  rw [← get?_eq_some_iff (keys_ofList_nodup entries), ofList, get?_insertAll, get?_nil,
    Option.or_none, get?_eq_some_iff_append]
  constructor
  · rintro ⟨after, before, split, absent⟩
    refine ⟨before.reverse, after.reverse, ?_, ?_⟩
    · simpa using congrArg List.reverse split
    · simpa [keys] using absent
  · rintro ⟨before, after, rfl, absent⟩
    exact ⟨after.reverse, before.reverse, by simp, by simpa [keys] using absent⟩

theorem insert_insert (t : Table α) (name : String) (value other : α) :
    insert (insert t name value) name other = insert t name other := by
  induction t with
  | nil => simp [insert]
  | cons entry rest ih =>
    obtain ⟨key, old⟩ := entry
    by_cases here : key = name
    · simp [insert, here]
    · simp [insert, here, ih]

/-- The entries with some of the keys. -/
theorem get?_filter (keep : String → Bool) (t : Table α) (key : String) :
    get? (t.filter fun entry => keep entry.1) key = if keep key then get? t key else none := by
  induction t with
  | nil => simp
  | cons entry rest ih =>
    obtain ⟨name, value⟩ := entry
    by_cases same : name = key
    · subst name
      cases kept : keep key <;> simp [kept, ih]
    · cases kept : keep name <;> simp [kept, ih, get?_cons_ne same]

/-- A key that is filtered out may be put in. -/
theorem filter_insert {keep : String → Bool} {name : String} (dropped : keep name = false)
    (t : Table α) (value : α) : (insert t name value).filter (fun entry => keep entry.1) =
      t.filter fun entry => keep entry.1 := by
  induction t with
  | nil => simp [insert, dropped]
  | cons entry rest ih =>
    obtain ⟨key, old⟩ := entry
    rw [insert]
    split
    · subst key
      simp [dropped]
    · rw [List.filter_cons, List.filter_cons, ih]

theorem filter_amend (keep : String → Bool) {name : String} (dropped : keep name = false)
    (t : Table α) (change : α → α) : (amend t name change).filter (fun entry => keep entry.1) =
      t.filter fun entry => keep entry.1 := by
  rw [amend]
  split
  · exact filter_insert dropped t _
  · rfl

/-- A table with a value for each of some names. -/
theorem get?_map_of_mem {names : List String} {name : String} (member : name ∈ names)
    (f : String → α) : get? (names.map fun name => (name, f name)) name = some (f name) := by
  induction names with
  | nil => cases member
  | cons first rest ih =>
    rw [List.map_cons, get?_cons]
    by_cases here : first = name
    · rw [if_pos here, here]
    · rw [if_neg here]
      exact ih ((List.mem_cons.mp member).resolve_left (Ne.symm here))

/-- What the entries give after an insertion, if the entry of the key gives more than before. -/
theorem mem_flatMap_insert {g : String × α → List β} {t : Table α} {key : String} {new : α} {b : β}
    {more : Prop} (grown : b ∈ g (key, new) ↔
      b ∈ ((get? t key).map fun old => g (key, old)).getD [] ∨ more) :
    b ∈ (insert t key new).flatMap g ↔ b ∈ t.flatMap g ∨ more := by
  induction t with
  | nil => simpa [insert] using grown
  | cons entry rest ih =>
    obtain ⟨name, old⟩ := entry
    by_cases here : name = key
    · subst name
      rw [get?_cons_self] at grown
      simp only [insert, ↓reduceIte, List.flatMap_cons, List.mem_append, grown]
      simp [or_right_comm]
    · rw [get?_cons_ne here] at grown
      simp only [insert, here, ↓reduceIte, List.flatMap_cons, List.mem_append, ih grown, or_assoc]

/-- What the entry of one key gives, if there is one entry for a key. -/
theorem flatMap_at {t : Table α} (unique : (keys t).Nodup) (name : String)
    (g : String × α → List β) : (t.flatMap fun entry => if entry.1 = name then g entry else []) =
      ((get? t name).map fun value => g (name, value)).getD [] := by
  induction t with
  | nil => rfl
  | cons entry rest ih =>
    obtain ⟨first, value⟩ := entry
    obtain ⟨absent, unique⟩ := List.nodup_cons.mp unique
    rw [List.flatMap_cons, ih unique]
    by_cases here : first = name
    · subst first
      rw [get?_cons_self, get?_eq_none_iff.mpr absent]
      simp
    · rw [get?_cons_ne here]
      simp [here]

/-- Of what the entries give, what belongs to one key comes from the entry of that key. -/
theorem filter_flatMap_at {t : Table α} (unique : (keys t).Nodup) {name : String} {value : α}
    (member : (name, value) ∈ t) {g : String × α → List β} {belongs : β → Bool}
    (own : ∀ entry ∈ t, ∀ b ∈ g entry, belongs b = true → entry.1 = name) :
    (t.flatMap g).filter belongs = (g (name, value)).filter belongs := by
  have each : ∀ entry ∈ t, (g entry).filter belongs =
      if entry.1 = name then (g entry).filter belongs else [] := by
    intro entry isEntry
    split
    · rfl
    · rename_i other
      rw [List.filter_eq_nil_iff]
      exact fun b isGiven isOwn => other (own entry isEntry b isGiven isOwn)
  rw [List.filter_flatMap, List.flatMap_def, List.map_congr_left each, ← List.flatMap_def,
    flatMap_at unique name fun entry => (g entry).filter belongs,
    (get?_eq_some_iff unique).mpr member]
  rfl

end ApiGraph.Table
