import ApiGraph.Proofs.Endpoint.Spared
import ApiGraph.Proofs.Merge.Definitions

/-! Endpoints do not depend on the order of the definitions. No component is read by the fields
`components` and `schemas`, so a reference leads to the same record whatever the order is, even one
that leads to all definitions at once. The endpoints of a document are those of the document with
its definitions in another order (`collect_reordered`). -/

namespace ApiGraph.Endpoint

open Merge (withDefinitions definitionsOf)

theorem names_soughtRefs (paths : Table PathItem) :
    ∀ entry ∈ soughtRefs paths, "components" ∉ entry.1 ∧ "schemas" ∉ entry.1 := by
  intro entry member
  obtain ⟨path, _, member⟩ := List.mem_flatMap.mp member
  obtain ⟨declared, _, member⟩ := List.mem_flatMap.mp member
  split at member
  · have kinds : entry.1 = Parameter.fieldNames ∨ entry.1 = RequestBody.fieldNames ∨
        entry.1 = Response.fieldNames := by
      simp only [componentRefs, List.mem_append, List.mem_filterMap, List.mem_map,
        Option.map_eq_some_iff] at member
      rcases member with (⟨_, _, _, _, rfl⟩ | ⟨_, _, rfl⟩) | ⟨_, _, rfl⟩ <;> simp
    rcases kinds with isFields | isFields | isFields <;> rw [isFields] <;> decide
  · cases member

/-- The order of definitions does not count for the endpoints of a document. -/
theorem collect_reordered {document : Json} {schemas : Table Json}
    {entities entities' : Table Entity} (perm : schemas.Perm (definitionsOf document))
    (unique : (definitionsOf document).keys.Nodup)
    (same : ∀ name, entities'.contains name = entities.contains name) (path path' : Option Path)
    (servers : List Server) (options : Options) :
    Gives (collect ⟨document, path⟩ servers entities options)
      (collect ⟨withDefinitions (fun _ => schemas) document, path'⟩ servers entities' options) := by
  refine collect_alike servers options fun paths read => ⟨paths, ?_, ?_⟩
  · rw [Description.paths, Merge.get?_withDefinitions _ document (by decide)]
    exact read
  · refine List.forall₂_same.mpr fun entry _ => itemAlike_of_sameRecord same (.refl entry.2) ?_
    intro component isRef f node _ stands
    obtain ⟨notComponents, notSchemas⟩ := names_soughtRefs _ component isRef
    exact Merge.exists_lookup perm unique notComponents notSchemas stands

end ApiGraph.Endpoint
