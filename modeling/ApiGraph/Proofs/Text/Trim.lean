import ApiGraph.Text.Blank
import ApiGraph.Text.Cut
import Mathlib.Data.List.TakeWhile

/-! Cutting and trimming: a text is what its pieces are joined to, and trimming leaves a text
without white space at its ends alone. -/

namespace ApiGraph.Text

/-! Cutting at a separator. -/

theorem cutFirst_eq_some {sep : Char} {cs before after : List Char}
    (h : cutFirst sep cs = some (before, after)) :
    cs = before ++ sep :: after ∧ sep ∉ before := by
  induction cs generalizing before after with
  | nil => cases h
  | cons c rest ih =>
    simp only [cutFirst] at h
    by_cases here : c = sep
    · simp only [here, ↓reduceIte, Option.some.injEq, Prod.mk.injEq] at h
      obtain ⟨rfl, rfl⟩ := h
      simp [here]
    · simp only [here, ↓reduceIte, Option.map_eq_some_iff] at h
      obtain ⟨⟨front, back⟩, found, same⟩ := h
      simp only [Prod.mk.injEq] at same
      obtain ⟨rfl, rfl⟩ := same
      obtain ⟨whole, absent⟩ := ih found
      exact ⟨by simp [whole], by simp [absent, Ne.symm here]⟩

theorem cutFirst_append {sep : Char} {before : List Char} (h : sep ∉ before)
    (after : List Char) : cutFirst sep (before ++ sep :: after) = some (before, after) := by
  induction before with
  | nil => simp [cutFirst]
  | cons c rest ih =>
    simp only [List.mem_cons, not_or] at h
    simp [cutFirst, Ne.symm h.1, ih h.2]

theorem cutFirst_eq_none {sep : Char} {cs : List Char} (h : cutFirst sep cs = none) :
    sep ∉ cs := by
  induction cs with
  | nil => simp
  | cons c rest ih =>
    simp only [cutFirst] at h
    by_cases here : c = sep
    · simp [here] at h
    · simp only [here, ↓reduceIte, Option.map_eq_none_iff] at h
      simp [Ne.symm here, ih h]

theorem cutLast_eq_none {sep : Char} {cs : List Char} (h : sep ∉ cs) : cutLast sep cs = none := by
  induction cs with
  | nil => rfl
  | cons c rest ih =>
    simp only [List.mem_cons, not_or] at h
    simp [cutLast, ih h.2, Ne.symm h.1]

theorem cutLast_append {sep : Char} (before : List Char) {after : List Char} (h : sep ∉ after) :
    cutLast sep (before ++ sep :: after) = some (before, after) := by
  induction before with
  | nil => simp [cutLast, cutLast_eq_none h]
  | cons c rest ih => simp [cutLast, ih]

/-! Splitting at every separator. -/

theorem split_ne_nil (sep : Char) (cs : List Char) : split sep cs ≠ [] := by
  induction cs with
  | nil => simp [split]
  | cons c rest ih =>
    simp only [split]
    split
    · simp
    · split <;> simp

theorem split_of_not_mem {sep : Char} {cs : List Char} (h : sep ∉ cs) : split sep cs = [cs] := by
  induction cs with
  | nil => rfl
  | cons c rest ih =>
    simp only [List.mem_cons, not_or] at h
    simp [split, Ne.symm h.1, ih h.2]

theorem split_append {sep : Char} {piece : List Char} (h : sep ∉ piece) (rest : List Char) :
    split sep (piece ++ sep :: rest) = piece :: split sep rest := by
  induction piece with
  | nil => simp [split]
  | cons c cs ih =>
    simp only [List.mem_cons, not_or] at h
    simp [split, Ne.symm h.1, ih h.2]

/-- The last piece stands behind the last separator. -/
theorem split_append_last {sep : Char} (before : List Char) {after : List Char} (h : sep ∉ after) :
    split sep (before ++ sep :: after) = split sep before ++ [after] := by
  induction before with
  | nil => simp [split, split_of_not_mem h]
  | cons c rest ih =>
    rw [List.cons_append, split, split, ih]
    by_cases same : c = sep
    · rw [if_pos same, if_pos same, List.cons_append]
    · rw [if_neg same, if_neg same]
      cases pieces : split sep rest with
      | nil => exact absurd pieces (split_ne_nil sep rest)
      | cons piece more => rfl

theorem exists_last {sep : Char} {cs : List Char} (h : sep ∈ cs) :
    ∃ before after, cs = before ++ sep :: after ∧ sep ∉ after := by
  obtain ⟨back, front, whole, first⟩ := List.eq_append_cons_of_mem (List.mem_reverse.mpr h)
  refine ⟨front.reverse, back.reverse, ?_, by simpa using first⟩
  rw [← List.reverse_reverse cs, whole]
  simp

theorem not_mem_of_mem_split {sep : Char} {cs piece : List Char} (h : piece ∈ split sep cs) :
    sep ∉ piece := by
  induction cs generalizing piece with
  | nil =>
    simp only [split, List.mem_singleton] at h
    simp [h]
  | cons c rest ih =>
    simp only [split] at h
    by_cases here : c = sep
    · simp only [here, ↓reduceIte, List.mem_cons] at h
      rcases h with rfl | later
      · simp
      · exact ih later
    · simp only [here, ↓reduceIte] at h
      cases pieces : split sep rest with
      | nil => exact absurd pieces (split_ne_nil sep rest)
      | cons first others =>
        simp only [pieces, List.mem_cons] at h ih
        rcases h with rfl | later
        · have old := ih (Or.inl rfl)
          simp [Ne.symm here, old]
        · exact ih (Or.inr later)

/-! Trimming. -/

theorem dropWhile_head {p : Char → Bool} {cs : List Char} (h : ∀ c ∈ cs.head?, p c = false) :
    cs.dropWhile p = cs := by
  cases cs with
  | nil => rfl
  | cons c rest => simp [h c (by simp)]

theorem head_dropWhile {p : Char → Bool} {cs : List Char} :
    ∀ c ∈ (cs.dropWhile p).head?, p c = false := by
  induction cs with
  | nil => simp
  | cons c rest ih =>
    by_cases here : p c = true
    · simpa [List.dropWhile_cons, here] using ih
    · simp [here]

/-- There is no white space at the ends. -/
def Trimmed (cs : List Char) : Prop :=
  (∀ c ∈ cs.head?, isBlank c = false) ∧ ∀ c ∈ cs.getLast?, isBlank c = false

theorem trim_of_trimmed {cs : List Char} (h : Trimmed cs) : trim cs = cs := by
  have front : cs.dropWhile isBlank = cs := dropWhile_head h.1
  have back : cs.reverse.dropWhile isBlank = cs.reverse :=
    dropWhile_head (by simpa using h.2)
  simp [trim, front, back]

/-- What is left of a text without its last characters starts as the text does. -/
theorem head_of_suffix {p : Char → Bool} {cs : List Char}
    (h : ∀ c ∈ cs.head?, p c = false) :
    ∀ c ∈ ((cs.reverse.dropWhile p).reverse).head?, p c = false := by
  intro c first
  obtain ⟨dropped, whole⟩ := List.dropWhile_suffix p (l := cs.reverse)
  have front : cs = (cs.reverse.dropWhile p).reverse ++ dropped.reverse := by
    rw [← List.reverse_append, whole, List.reverse_reverse]
  apply h c
  rw [front]
  cases kept : (cs.reverse.dropWhile p).reverse with
  | nil => simp [kept] at first
  | cons d rest => simpa [kept] using first

theorem trimmed_trim (cs : List Char) : Trimmed (trim cs) := by
  constructor
  · exact head_of_suffix head_dropWhile
  · intro c last
    rw [trim, List.getLast?_reverse] at last
    exact head_dropWhile c last

/-- A first character that is no white space stays the first one. -/
theorem head?_trim {c : Char} (h : isBlank c = false) (cs : List Char) :
    (trim (c :: cs)).head? = some c := by
  have front : (c :: cs).dropWhile isBlank = c :: cs := dropWhile_head (by simpa using h)
  rw [trim, front, List.reverse_cons, List.head?_reverse, List.dropWhile_append]
  split <;> simp [h]

/-- The text without the white space at its end. -/
def trimEnd (cs : List Char) : List Char := (cs.reverse.dropWhile isBlank).reverse

theorem exists_trimEnd (cs : List Char) : ∃ dropped, cs = trimEnd cs ++ dropped := by
  refine ⟨(cs.reverse.takeWhile isBlank).reverse, ?_⟩
  rw [trimEnd, ← List.reverse_append, List.takeWhile_append_dropWhile, List.reverse_reverse]

theorem not_mem_trimEnd {c : Char} {cs : List Char} (absent : c ∉ cs) : c ∉ trimEnd cs := by
  obtain ⟨dropped, whole⟩ := exists_trimEnd cs
  rw [whole] at absent
  exact fun member => absent (List.mem_append_left _ member)

theorem trimEnd_clean {cs : List Char} : ∀ c ∈ (trimEnd cs).getLast?, isBlank c = false := by
  intro c last
  rw [trimEnd, List.getLast?_reverse] at last
  exact head_dropWhile c last

theorem trimEnd_eq_self_iff {cs : List Char} :
    trimEnd cs = cs ↔ ∀ c ∈ cs.getLast?, isBlank c = false := by
  constructor
  · intro same
    rw [← same]
    exact trimEnd_clean
  · intro clean
    rw [trimEnd, dropWhile_head (by simpa using clean), List.reverse_reverse]

/-- From a text that starts with no white space, it is cut off at the end only. -/
theorem trim_of_head {cs : List Char} (clean : ∀ c ∈ cs.head?, isBlank c = false) :
    trim cs = trimEnd cs := by
  rw [trim, dropWhile_head clean, trimEnd]

/-- White space is cut off behind a text that has none at its ends, and nothing else. -/
theorem trim_append {front : List Char} (h : Trimmed front) (filled : front ≠ [])
    (back : List Char) : trim (front ++ back) = front ++ trimEnd back := by
  have start : ∀ c ∈ (front ++ back).head?, isBlank c = false := by
    cases front with
    | nil => exact absurd rfl filled
    | cons c rest => exact h.1
  have keep : front.reverse.dropWhile isBlank = front.reverse :=
    dropWhile_head (by simpa using h.2)
  rw [trim_of_head start, trimEnd, trimEnd, List.reverse_append, List.dropWhile_append, keep]
  split
  · rename_i nothing
    rw [List.isEmpty_iff.mp nothing, List.reverse_reverse, List.reverse_nil, List.append_nil]
  · rw [List.reverse_append, List.reverse_reverse]

/-- Trimming leaves nothing of white space, and something of every other text. -/
theorem trim_eq_nil_iff {cs : List Char} : trim cs = [] ↔ ∀ c ∈ cs, isBlank c = true := by
  rw [trim, List.reverse_eq_nil_iff, List.dropWhile_eq_nil_iff]
  simp only [List.mem_reverse]
  constructor
  · intro blank
    rw [← List.dropWhile_eq_nil_iff]
    cases front : cs.dropWhile isBlank with
    | nil => rfl
    | cons c rest =>
      have filled := @head_dropWhile isBlank cs c (by simp [front])
      rw [blank c (by simp [front])] at filled
      cases filled
  · intro blank c member
    exact blank c ((List.dropWhile_suffix isBlank).subset member)

theorem allBlank_iff {s : String} : allBlank s = true ↔ trim s.toList = [] := by
  rw [trim_eq_nil_iff, allBlank, List.all_eq_true]

/-! Patterns. -/

theorem contains_of_suffix {pattern front back : List Char}
    (h : contains pattern (front ++ back) = false) : contains pattern back = false := by
  induction front with
  | nil => exact h
  | cons c rest ih =>
    simp only [List.cons_append, contains, Bool.or_eq_false_iff] at h
    exact ih h.2

theorem dropLead?_append (lead rest : List Char) : dropLead? lead (lead ++ rest) = some rest := by
  induction lead with
  | nil => rfl
  | cons c cs ih => simp [dropLead?, ih]

theorem dropLead?_eq_some {lead cs rest : List Char} (h : dropLead? lead cs = some rest) :
    cs = lead ++ rest := by
  induction lead generalizing cs with
  | nil => simpa [dropLead?] using h
  | cons c lead ih =>
    cases cs with
    | nil => cases h
    | cons d cs =>
      simp only [dropLead?] at h
      split at h
      · rename_i same
        simp [same, ih h]
      · cases h

theorem exists_of_contains {pattern cs : List Char} (h : contains pattern cs = true) :
    ∃ front back, cs = front ++ (pattern ++ back) := by
  induction cs with
  | nil =>
    simp only [contains, List.isEmpty_iff] at h
    exact ⟨[], [], by simp [h]⟩
  | cons c rest ih =>
    simp only [contains, Bool.or_eq_true] at h
    rcases h with here | later
    · obtain ⟨back, found⟩ := Option.isSome_iff_exists.mp here
      exact ⟨[], back, by simpa using dropLead?_eq_some found⟩
    · obtain ⟨front, back, whole⟩ := ih later
      exact ⟨c :: front, back, by simp [whole]⟩

theorem contains_append (pattern front back : List Char) :
    contains pattern (front ++ (pattern ++ back)) = true := by
  induction front with
  | nil =>
    have lead : startsWith pattern (pattern ++ back) = true := by
      rw [startsWith, dropLead?_append]
      rfl
    cases whole : pattern ++ back with
    | nil =>
      obtain ⟨rfl, _⟩ := List.append_eq_nil_iff.mp whole
      rfl
    | cons c rest =>
      rw [whole] at lead
      simp [contains, lead]
  | cons c rest ih => simp [contains, ih]

theorem contains_of_prefix {pattern front back : List Char}
    (h : contains pattern (front ++ back) = false) : contains pattern front = false := by
  cases found : contains pattern front with
  | false => rfl
  | true =>
    obtain ⟨before, after, rfl⟩ := exists_of_contains found
    rw [List.append_assoc, List.append_assoc, contains_append] at h
    cases h

end ApiGraph.Text
