import ApiGraph.Proofs.Table.Lookup

/-! Parts of a table: the entries with some of the keys, in their order. A table is made of two
others if each of them is the part with its own keys. -/

namespace ApiGraph.Table

variable {α β : Type _}

/-- A table made of the entries of two others, which have no key in common. Both keep the order of
their entries. -/
structure Union (first second whole : Table α) : Prop where
  apart : ∀ key ∈ keys first, key ∉ keys second
  isFirst : whole.filter (fun entry => entry.1 ∈ keys first) = first
  isSecond : whole.filter (fun entry => entry.1 ∉ keys first) = second

theorem keys_filter (keep : String → Bool) (t : Table α) :
    keys (t.filter fun entry => keep entry.1) = (keys t).filter keep := by
  rw [keys, keys, List.filter_map]
  rfl

theorem mem_keys_filter {keep : String → Bool} {t : Table α} {key : String} :
    key ∈ keys (t.filter fun entry => keep entry.1) ↔ key ∈ keys t ∧ keep key = true := by
  rw [keys_filter, List.mem_filter]

theorem keys_filter_nodup {t : Table α} (unique : (keys t).Nodup) (keep : String → Bool) :
    (keys (t.filter fun entry => keep entry.1)).Nodup := by
  rw [keys_filter]
  exact unique.filter keep

/-- The entries with some of the keys and the others make up the table. -/
theorem union_of_filter {keep other : String → Bool} {whole : Table α}
    (others : ∀ key ∈ keys whole, other key = !keep key) :
    Union (whole.filter fun entry => keep entry.1) (whole.filter fun entry => other entry.1)
      whole where
  apart := by
    intro key inFirst inSecond
    obtain ⟨there, kept⟩ := mem_keys_filter.mp inFirst
    have dropped := (mem_keys_filter.mp inSecond).2
    rw [others key there, kept] at dropped
    cases dropped
  isFirst := by
    apply List.filter_congr
    intro entry member
    have there : entry.1 ∈ keys whole := List.mem_map_of_mem member
    simp [mem_keys_filter, there]
  isSecond := by
    apply List.filter_congr
    intro entry member
    have there : entry.1 ∈ keys whole := List.mem_map_of_mem member
    simp [mem_keys_filter, there, others entry.1 there]

theorem Union.mem_iff {first second whole : Table α} (h : Union first second whole)
    {entry : String × α} : entry ∈ whole ↔ entry ∈ first ∨ entry ∈ second := by
  have isFirst := congrArg (entry ∈ ·) h.isFirst
  have isSecond := congrArg (entry ∈ ·) h.isSecond
  simp only [List.mem_filter] at isFirst isSecond
  rw [← isFirst, ← isSecond]
  by_cases inFirst : entry.1 ∈ keys first <;> simp [inFirst]

theorem Union.mem_keys_second {first second whole : Table α} (h : Union first second whole)
    {key : String} : key ∈ keys whole ∧ key ∉ keys first ↔ key ∈ keys second := by
  have table := @mem_keys_filter _ (fun key => key ∉ keys first) whole key
  rw [h.isSecond] at table
  simpa using table.symm

/-- Entries with some of the keys are changed as all of them are. -/
theorem map_filter (keep : String → Bool) {change change' : String → α → β} {t : Table α}
    (same : ∀ entry ∈ t, keep entry.1 = true → change' entry.1 entry.2 = change entry.1 entry.2) :
    (t.filter fun entry => keep entry.1).map (fun entry => (entry.1, change' entry.1 entry.2)) =
      (t.map fun entry => (entry.1, change entry.1 entry.2)).filter fun entry => keep entry.1 := by
  rw [List.filter_map]
  apply List.map_congr_left
  intro entry member
  obtain ⟨there, kept⟩ := List.mem_filter.mp member
  rw [same entry there kept]

/-- What comes from some of the items is a part of what comes from all, if it is seen from which
item a thing comes. -/
theorem flatMap_filter {items : List α} {keep : α → Bool} {kept : β → Bool} {f : α → List β}
    (seen : ∀ a ∈ items, ∀ b ∈ f a, kept b = keep a) :
    (items.filter keep).flatMap f = (items.flatMap f).filter kept := by
  rw [List.filter_flatMap]
  induction items with
  | nil => rfl
  | cons a rest ih =>
    have later := ih fun c member => seen c (by simp [member])
    rw [List.flatMap_cons, ← later, List.filter_cons]
    split
    · rename_i ours
      have all : (f a).filter kept = f a :=
        List.filter_eq_self.mpr fun b member => by rw [seen a (by simp) b member, ours]
      rw [List.flatMap_cons, all]
    · rename_i others
      have none : (f a).filter kept = [] :=
        List.filter_eq_nil_iff.mpr fun b member => by rwa [seen a (by simp) b member]
      rw [none, List.nil_append]

/-! Entries that are put in where no key is there. -/

theorem filter_insertNew (keep : String → Bool) (t : Table α) (name : String) (value : α) :
    (insertNew t name value).filter (fun entry => keep entry.1) =
      if keep name then insertNew (t.filter fun entry => keep entry.1) name value
      else t.filter fun entry => keep entry.1 := by
  have inFilter : keep name = true →
      (name ∈ keys (t.filter fun entry => keep entry.1) ↔ name ∈ keys t) := by
    intro kept
    rw [mem_keys_filter]
    simp [kept]
  by_cases there : name ∈ keys t
  · rw [insertNew, if_pos (contains_iff.mpr there)]
    split
    · rename_i kept
      rw [insertNew, if_pos (contains_iff.mpr ((inFilter kept).mpr there))]
    · rfl
  · have absent : ¬ t.contains name = true := fun h => there (contains_iff.mp h)
    rw [insertNew, if_neg absent, insert_of_not_mem there, List.filter_append]
    split
    · rename_i kept
      have absent' := mt (inFilter kept).mp there
      rw [insertNew, if_neg fun h => absent' (contains_iff.mp h), insert_of_not_mem absent']
      simp [kept]
    · rename_i dropped
      simp [dropped]

/-- Entries that are put behind those of a table, as far as their keys are kept. -/
theorem filter_addAll (keep : String → Bool) (t added : Table α) :
    (addAll t added).filter (fun entry => keep entry.1) =
      addAll (t.filter fun entry => keep entry.1) (added.filter fun entry => keep entry.1) := by
  induction added generalizing t with
  | nil => rfl
  | cons entry rest ih =>
    have step := ih (insertNew t entry.1 entry.2)
    rw [filter_insertNew] at step
    refine step.trans ?_
    rw [List.filter_cons]
    by_cases kept : keep entry.1 = true
    · simp only [kept, ↓reduceIte]
      rfl
    · simp only [kept, ↓reduceIte, Bool.false_eq_true]

end ApiGraph.Table
