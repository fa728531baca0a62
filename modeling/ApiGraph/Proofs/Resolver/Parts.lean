import ApiGraph.Proofs.Resolver.Spared

/-! References in a part of the definitions of a document. With them and without them the document
is alike but for the places of the definitions that are left out (`alike_part`). A reference that
avoids them visits none of these places (`Avoids.shuns`). -/

namespace ApiGraph

open Merge (withDefinitions definitionsOf)
open Record (Resembles)

/-- A place where something of the named definitions is read: one of them or a part of one, or the
table of all definitions, if one of the named ones is called like a field of a schema. -/
def Fragment.Touches (names : List String) (place : Fragment) : Prop :=
  (∃ name ∈ names, ["components", "schemas", name] <+: place.keys) ∨
    place.keys = ["components", "schemas"] ∧ ∃ name ∈ names, name ∈ Schema.fieldNames

/-- Scopes in the same place, the second one with a part of the definitions. -/
structure Scope.Part (mine : String → Bool) (whole part : Scope) : Prop where
  file : part.file = whole.file
  baseDir : part.baseDir = whole.baseDir
  document : part.document =
    withDefinitions (·.filter fun entry => mine entry.1) whole.document

theorem Scope.Part.document_eq {mine : String → Bool} {whole part : Scope}
    (h : whole.Part mine part) : part.document =
      withDefinitions (fun _ => (definitionsOf whole.document).filter fun entry => mine entry.1)
        whole.document :=
  h.document.trans (Merge.withDefinitions_congr rfl)

namespace Resolver

variable {files : FileTree} {scope : Scope} {fields : List String} {origin : Origin}
  {ref : Reference} {raw : String} {t : Resolved}

/-- A reference that visits no place of the named definitions. -/
structure Avoids (files : FileTree) (scope : Scope) (names : List String) (origin : Origin)
    (ref : Reference) : Prop where
  written : ref.fragment.Written
  untouched : ∀ place, Visits files scope origin ref place → ¬ place.Touches names

theorem Avoids.shuns {names : List String} (avoids : Avoids files scope names origin ref) :
    Shuns files scope (·.Touches names) origin ref where
  written := avoids.written
  untouched := avoids.untouched

/-- What stands at a place in a document stands there with another table of definitions as well. -/
theorem exists_lookup_kept {document : Json} {schemas : Table Json} {place : Fragment} {node : Json}
    (written : place.Written) (notComponents : "components" ∉ fields)
    (notSchemas : "schemas" ∉ fields)
    (kept : ∀ name rest, place.keys = "components" :: "schemas" :: name :: rest →
      ∀ value, Table.get? (definitionsOf document) name = some value →
        Table.get? schemas name = some value)
    (alike : place.keys = ["components", "schemas"] →
      Resembles fields (.object (definitionsOf document)) (.object schemas))
    (found : place.lookup document = some node) :
    ∃ node', place.lookup (withDefinitions (fun _ => schemas) document) = some node' ∧
      Resembles fields node node' := by
  rcases Merge.hasTable_or_unchanged document with ⟨top, components, old, table⟩ | ⟨same, _⟩
  · have shape : document.isObject = true := by rw [table.isTop]; rfl
    have shape' := (Merge.isObject_withDefinitions (fun _ => schemas) document).trans shape
    rw [Fragment.lookup_eq_follow written shape] at found
    rw [Fragment.lookup_eq_follow written shape']
    exact Merge.exists_follow_kept notComponents notSchemas kept alike found
  · rw [same]
    exact ⟨node, found, .same node⟩

variable {mine : String → Bool} {names : List String}

/-- Where the definitions that are left out are not called like a field, all definitions are read as
the same record without them. -/
theorem resembles_part {schemas : Table Json}
    (left : ∀ name ∈ Table.keys schemas, name ∉ names → mine name = true)
    (unnamed : ¬ ∃ name ∈ names, name ∈ fields) :
    Resembles fields (.object schemas) (.object (schemas.filter fun entry => mine entry.1)) := by
  have ours : ∀ key ∈ fields, key ∈ Table.keys schemas → mine key = true :=
    fun key isField defined => left key defined fun named => unnamed ⟨key, named, isField⟩
  refine .object (.of_eq ?_) ?_
  · rw [List.filter_filter]
    apply List.filter_congr
    intro entry member
    by_cases isField : entry.1 ∈ fields
    · simp [isField, ours entry.1 isField (List.mem_map_of_mem member)]
    · simp [isField]
  · intro key isField
    rw [Table.get?_filter]
    split
    · rfl
    · rename_i dropped
      exact (Table.get?_eq_none_iff.mpr fun defined => dropped (ours key isField defined)).symm

section

variable {whole part : Scope} (h : whole.Part mine part)
  (left : ∀ name ∈ (definitionsOf whole.document).keys, name ∉ names → mine name = true)
include h left

/-- What stands at an untouched place stands there without the definitions that are left out. -/
theorem exists_lookup_part {f : Fragment} (written : f.Written) (untouched : ¬ f.Touches names)
    {node : Json} (found : f.lookup whole.document = some node) :
    ∃ node', f.lookup part.document = some node' ∧ Resembles Schema.fieldNames node node' := by
  rw [h.document_eq]
  refine exists_lookup_kept written (by decide) (by decide) ?_ ?_ found
  · intro name rest passed value there
    have ours : mine name = true := by
      apply left name (Table.mem_keys_of_get? there)
      exact fun named => untouched (Or.inl ⟨name, named, rest, passed.symm⟩)
    rw [Table.get?_filter, if_pos ours, there]
  · exact fun isTable => resembles_part left fun named => untouched (Or.inr ⟨isTable, named⟩)

/-- What stands at an untouched place without the definitions that are left out stands there with
them. -/
theorem exists_lookup_whole {f : Fragment} (written : f.Written) (untouched : ¬ f.Touches names)
    {node : Json} (found : f.lookup part.document = some node) :
    ∃ node', f.lookup whole.document = some node' ∧ Resembles Schema.fieldNames node node' := by
  have table : definitionsOf part.document =
      (definitionsOf whole.document).filter fun entry => mine entry.1 := by
    rw [h.document, Merge.definitionsOf_withDefinitions rfl]
  have back : withDefinitions (fun _ => definitionsOf whole.document) part.document =
      whole.document := by
    rw [h.document_eq, Merge.withDefinitions_undo]
  rw [← back]
  refine exists_lookup_kept written (by decide) (by decide) ?_ ?_ found
  · intro name rest _ value there
    rw [table, Table.get?_filter] at there
    split at there
    · exact there
    · cases there
  · intro isTable
    rw [table]
    exact (resembles_part left fun named => untouched (Or.inr ⟨isTable, named⟩)).symm

/-- With the definitions that are left out and without them the document is alike, but for their
places. -/
theorem alike_part : whole.Alike (·.Touches names) part where
  file := h.file
  baseDir := h.baseDir
  lookup := by
    intro f written untouched
    cases found : f.lookup whole.document with
    | some node =>
      obtain ⟨node', found', resembles⟩ := exists_lookup_part h left written untouched found
      rw [found']
      exact .some resembles
    | none =>
      cases found' : f.lookup part.document with
      | none => exact .none
      | some node =>
        obtain ⟨_, there, _⟩ := exists_lookup_whole h left written untouched found'
        cases found.symm.trans there

end

end Resolver

end ApiGraph
