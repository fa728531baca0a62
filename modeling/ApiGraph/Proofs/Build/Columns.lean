import ApiGraph.Proofs.Build.Effects

/-! What the entities are before the keys are put in place. An entity is changed by its own effects
alone, in their order (`get?_applyAll`). No step but the last one makes a foreign key, so until
then every column is free of keys (`Clean`). -/

namespace ApiGraph

namespace Build

variable {files : FileTree} {source : Source} {s : State}

/-! Pending keys. -/

theorem mem_addPending {pending keys : List PendingKey} {key : PendingKey} :
    key ∈ addPending pending keys ↔ key ∈ pending ∨ key ∈ keys := by
  induction keys generalizing pending with
  | nil => simp [addPending]
  | cons first rest ih =>
    have step := @ih (if first ∈ pending then pending else pending ++ [first])
    simp only [addPending, List.foldl_cons] at step ⊢
    rw [step]
    by_cases present : first ∈ pending
    · rw [if_pos present]
      constructor
      · rintro (old | new)
        · exact Or.inl old
        · exact Or.inr (List.mem_cons_of_mem _ new)
      · rintro (old | new)
        · exact Or.inl old
        · rcases List.mem_cons.mp new with rfl | later
          · exact Or.inl present
          · exact Or.inr later
    · rw [if_neg present]
      simp [or_assoc]

/-- All keys are recorded in the order of the effects. -/
theorem pending_applyAll (s : State) (xs : List Effect) :
    (applyAll s xs).pending = addPending s.pending (xs.flatMap (·.keys)) := by
  induction xs generalizing s with
  | nil => rfl
  | cons x rest ih =>
    have step := ih (x.apply s)
    rw [applyAll] at step
    rw [applyAll, List.foldl_cons, step, List.flatMap_cons, addPending, addPending,
      List.foldl_append]
    rfl

theorem mem_pending_applyAll {xs : List Effect} {key : PendingKey} :
    key ∈ (applyAll s xs).pending ↔ key ∈ s.pending ∨ ∃ x ∈ xs, key ∈ x.keys := by
  rw [pending_applyAll, mem_addPending, List.mem_flatMap]

/-- The recorded keys that are kept are those that are recorded of the keys to be kept. -/
theorem filter_addPending (keep : PendingKey → Bool) (pending keys : List PendingKey) :
    (addPending pending keys).filter keep = addPending (pending.filter keep) (keys.filter keep) := by
  induction keys generalizing pending with
  | nil => rfl
  | cons key rest ih =>
    have step := ih (if key ∈ pending then pending else pending ++ [key])
    rw [addPending] at step
    rw [addPending, List.foldl_cons, step, List.filter_cons]
    by_cases kept : keep key = true
    · by_cases present : key ∈ pending
      · simp [addPending, kept, present]
      · simp [addPending, kept, present, List.filter_append]
    · by_cases present : key ∈ pending
      · simp [addPending, kept, present]
      · simp [addPending, kept, present, List.filter_append]

/-! Entities. -/

/-- What the effects of one entity come to. -/
def changeAll (xs : List Effect) (e : Entity) : Entity := xs.foldl (fun e x => x.change e) e

theorem get?_applyAll (s : State) (xs : List Effect) (name : String) :
    (applyAll s xs).entities.get? name =
      (s.entities.get? name).map (changeAll (xs.filter (·.owner = name))) := by
  induction xs generalizing s with
  | nil =>
    have nothing : changeAll [] = id := rfl
    simp [applyAll, nothing]
  | cons x rest ih =>
    have step := ih (x.apply s)
    rw [applyAll] at step
    rw [applyAll, List.foldl_cons, step, Effect.apply, Table.get?_amend]
    by_cases own : x.owner = name
    · rw [if_pos own, Option.map_map, List.filter_cons, if_pos (by simpa using own)]
      rfl
    · rw [if_neg own, List.filter_cons, if_neg (by simpa using own)]

theorem keys_applyAll (s : State) (xs : List Effect) :
    (applyAll s xs).entities.keys = s.entities.keys := by
  induction xs generalizing s with
  | nil => rfl
  | cons x rest ih =>
    rw [applyAll, List.foldl_cons]
    have step := ih (x.apply s)
    rw [applyAll] at step
    rw [step, Effect.apply, Table.keys_amend]

theorem effects_mild {xs : List Effect} (h : effects files source = .ok xs) : ∀ x ∈ xs, x.Mild :=
  forall_effects h (fun _ _ _ => Member.effect_mild) (fun _ _ _ => Alternative.effect_mild)
    fun _ _ _ => Mention.effect_mild

theorem bare_changeAll {xs : List Effect} (mild : ∀ x ∈ xs, x.Mild) (e : Entity) :
    (changeAll xs e).bare = e.bare := by
  induction xs generalizing e with
  | nil => rfl
  | cons x rest ih =>
    have later := ih (fun y member => mild y (by simp [member])) (x.change e)
    rw [mild x (by simp) e] at later
    exact later

/-! Columns without keys. -/

/-- Columns that have one name each and are no foreign keys. -/
structure Clean (columns : Table Column) : Prop where
  unique : columns.keys.Nodup
  keyless : ∀ name column, columns.get? name = some column → column.foreignKey = none

namespace Clean

theorem nil : Clean [] := ⟨by simp, by simp⟩

theorem insert {columns : Table Column} (h : Clean columns) (name : String) {column : Column}
    (keyless : column.foreignKey = none) : Clean (Table.insert columns name column) where
  unique := Table.keys_insert_nodup h.unique name column
  keyless := by
    intro other found there
    rw [Table.get?_insert] at there
    split at there
    · cases there
      exact keyless
    · exact h.keyless other found there

theorem erase {columns : Table Column} (h : Clean columns) (name : String) :
    Clean (Table.erase columns name) where
  unique := h.unique.sublist (Table.keys_erase_sublist columns name)
  keyless := by
    intro other found there
    rw [Table.get?_erase h.unique] at there
    split at there
    · cases there
    · exact h.keyless other found there

end Clean

theorem clean_addScalarColumns {e : Entity} (h : Clean e.columns) (requiredBy : List Schema)
    (properties : List (String × Schema)) :
    Clean (addScalarColumns e requiredBy properties).columns :=
  addScalarColumns_induction (motive := fun e => Clean e.columns) h
    (fun _ name _ keyless clean => clean.insert name keyless) requiredBy properties

/-- An effect that makes no foreign key. -/
def Effect.Clean (x : Effect) : Prop :=
  ∀ e : Entity, Build.Clean e.columns → Build.Clean (x.change e).columns

theorem Member.effect_clean {m : Member} {x : Effect} (h : m.effect files source = .ok x) :
    x.Clean := by
  obtain ⟨member, _, h⟩ := bind_eq_ok.mp h
  cases h
  exact fun e clean => clean_addScalarColumns clean _ _

theorem Mention.effect_clean {m : Mention} {x : Effect} (h : m.effect source = .ok x) :
    x.Clean := by
  obtain ⟨l, _, h⟩ := bind_eq_ok.mp h
  obtain ⟨e, f, p, _, _, _, rfl⟩ := Link.effect_eq_ok h
  intro e clean
  by_cases adds : l.addsRelationship = true
  · simp only [adds, ↓reduceIte]
    exact clean.erase _
  · simp only [adds, Bool.false_eq_true, ↓reduceIte]
    exact clean

theorem Alternative.effect_clean {a : Alternative} {x : Effect} (h : a.effect source = .ok x) :
    x.Clean := by
  rw [Alternative.effect] at h
  split at h
  · cases h
    exact fun e clean => clean.insert _ rfl
  · split at h
    · exact Mention.effect_clean h
    · cases h

theorem effects_clean {xs : List Effect} (h : effects files source = .ok xs) :
    ∀ x ∈ xs, x.Clean :=
  forall_effects h (fun _ _ _ => Member.effect_clean) (fun _ _ _ => Alternative.effect_clean)
    fun _ _ _ => Mention.effect_clean

theorem clean_changeAll {xs : List Effect} (clean : ∀ x ∈ xs, x.Clean) {e : Entity}
    (h : Clean e.columns) : Clean (changeAll xs e).columns := by
  induction xs generalizing e with
  | nil => exact h
  | cons x rest ih =>
    exact ih (fun y member => clean y (by simp [member])) (clean x (by simp) e h)

end Build

end ApiGraph
