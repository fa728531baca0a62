import ApiGraph.Endpoint.Basic
import Mathlib.Data.List.Basic

/-! Methods in alphabetical order. What is arranged holds one entry for each method, in order
(`keys_arrange`), and no entry that was not there; what stands in order already stays as it is
(`arrange_of_sublist`). -/

namespace ApiGraph

variable {α β : Type}

/-- Entries whose keys stand in the given order are found in that order. -/
theorem filterMap_of_sublist {entries : List (α × β)} {order : List α}
    {find : α → Option (α × β)} (sub : (entries.map Prod.fst).Sublist order)
    (unique : order.Nodup) (hit : ∀ entry ∈ entries, find entry.1 = some entry)
    (miss : ∀ key ∈ order, key ∉ entries.map Prod.fst → find key = none) :
    order.filterMap find = entries := by
  induction order generalizing entries with
  | nil =>
    cases entries with
    | nil => rfl
    | cons => cases sub
  | cons key order ih =>
    obtain ⟨single, later⟩ := List.nodup_cons.mp unique
    cases entries with
    | nil =>
      refine (List.filterMap_eq_nil_iff).mpr fun other member => miss other member ?_
      simp
    | cons entry rest =>
      rcases List.sublist_cons_iff.mp sub with skipped | ⟨keys, eq, taken⟩
      · have absent : key ∉ (entry :: rest).map Prod.fst := fun member =>
          single (skipped.subset member)
        rw [List.filterMap_cons_none (miss key (by simp) absent)]
        exact ih skipped later hit fun other member => miss other (by simp [member])
      · obtain ⟨rfl, rfl⟩ := List.cons.inj eq
        rw [List.filterMap_cons_some (hit entry (by simp))]
        congr 1
        refine ih taken later (fun other member => hit other (by simp [member])) ?_
        intro other member absent
        have differs : other ≠ entry.1 := by
          rintro rfl
          exact single member
        exact miss other (by simp [member]) (by simpa [differs] using absent)

theorem lookup_reverse_of_mem [BEq α] [LawfulBEq α] {entries : List (α × β)}
    (unique : (entries.map Prod.fst).Nodup) {key : α} {value : β}
    (member : (key, value) ∈ entries) : entries.reverse.lookup key = some value := by
  obtain ⟨before, after, rfl⟩ := List.append_of_mem member
  rw [List.map_append, List.map_cons, List.nodup_append, List.nodup_cons] at unique
  refine List.lookup_eq_some_iff.mpr ⟨after.reverse, before.reverse, by simp, ?_⟩
  intro other later
  have differs : key ≠ other.1 := by
    intro same
    exact unique.2.1.1 (List.mem_map.mpr ⟨other, List.mem_reverse.mp later, same.symm⟩)
  simpa using differs

theorem lookup_reverse_eq_none_iff [BEq α] [LawfulBEq α] {entries : List (α × β)} {key : α} :
    entries.reverse.lookup key = none ↔ key ∉ entries.map Prod.fst := by
  rw [List.lookup_eq_none_iff, List.mem_map]
  constructor
  · rintro other ⟨entry, member, rfl⟩
    simpa using other entry (List.mem_reverse.mpr member)
  · intro absent entry member
    have differs : key ≠ entry.1 :=
      fun same => absent ⟨entry, List.mem_reverse.mp member, same.symm⟩
    simpa using differs

namespace EndpointMethod

/-- Methods in alphabetical order are arranged as they are. -/
theorem arrange_of_sublist {methods : List (HttpMethod × EndpointMethod)}
    (ordered : (methods.map Prod.fst).Sublist HttpMethod.alphabetical) :
    arrange methods = methods := by
  have unique : HttpMethod.alphabetical.Nodup := by decide
  refine filterMap_of_sublist ordered unique ?_ ?_
  · intro entry member
    rw [lookup_reverse_of_mem (ordered.nodup unique) member]
    rfl
  · intro key _ absent
    rw [lookup_reverse_eq_none_iff.mpr absent]
    rfl

/-- Each method once, in alphabetical order. -/
theorem keys_arrange (entries : List (HttpMethod × EndpointMethod)) :
    (arrange entries).map Prod.fst =
      HttpMethod.alphabetical.filter fun m => m ∈ entries.map Prod.fst := by
  rw [arrange, List.map_filterMap, ← List.filterMap_eq_filter]
  apply List.filterMap_congr
  intro m _
  cases found : entries.reverse.lookup m with
  | none => simp [Option.guard, lookup_reverse_eq_none_iff.mp found]
  | some method =>
    have listed : m ∈ entries.map Prod.fst := by
      refine Decidable.of_not_not fun absent => ?_
      rw [lookup_reverse_eq_none_iff.mpr absent] at found
      cases found
    simp [Option.guard, listed]

theorem mem_of_arrange {entries : List (HttpMethod × EndpointMethod)}
    {entry : HttpMethod × EndpointMethod} (h : entry ∈ arrange entries) : entry ∈ entries := by
  obtain ⟨m, _, found⟩ := List.mem_filterMap.mp h
  obtain ⟨method, here, rfl⟩ := Option.map_eq_some_iff.mp found
  obtain ⟨before, after, split, _⟩ := List.lookup_eq_some_iff.mp here
  rw [← List.mem_reverse, split]
  simp

end EndpointMethod

end ApiGraph
