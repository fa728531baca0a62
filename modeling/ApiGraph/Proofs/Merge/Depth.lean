import ApiGraph.Proofs.Merge.Account

/-! Targets do not nest too deep. Every target of a merge is given by a reference string that stands
somewhere in the document or in a file, and one string at one place gives one target. So there are
never more targets than the walk allows for, and no merge fails for its depth
(`Sound.length_lt`). -/

namespace ApiGraph

namespace FileTree

theorem mem_of_lookup {entries : List (Location × FileEntry)} {location : Location}
    {found : FileEntry} (h : lookup entries location = some found) :
    (location, found) ∈ entries := by
  induction entries with
  | nil => cases h
  | cons entry rest ih =>
    obtain ⟨place, here⟩ := entry
    rw [lookup] at h
    split at h
    · rename_i same
      cases h
      simp [same]
    · exact List.mem_cons_of_mem _ (ih h)

/-- A file has an entry of its own. -/
theorem mem_of_file {files : FileTree} {location : Location} {text : String}
    (h : files.entry? location = some (.file text)) : (location, .file text) ∈ files.entries := by
  unfold entry? at h
  split at h
  · cases h
  · exact mem_of_lookup h

end FileTree

namespace Merge

open Resolver (Origin)

/-- Where the references stand that are met in a file, or in the document. -/
def originOf (baseDir : Path) : Option Path → Origin
  | none => ⟨none, baseDir⟩
  | some p => ⟨some p, p.parent?.getD Path.here⟩

/-- The reference strings of a document, each with its file. -/
def stringsOf (file : Option Path) (document : Json) : List (Option Path × String) :=
  document.allRefs.map (file, ·)

/-- The reference strings of what stands at a location. -/
def stringsAt (files : FileTree) (location : Location) : List (Option Path × String) :=
  match files.load (FileTree.textOf location) with
  | .ok document => stringsOf (some (FileTree.textOf location)) document
  | .error _ => []

/-- All reference strings that a merge may meet. -/
def strings (files : FileTree) (root : Root) : List (Option Path × String) :=
  stringsOf none root.document ++ files.entries.flatMap fun entry => stringsAt files entry.1

variable {files : FileTree} {root : Root} {baseDir : Path}

/-- The walk allows for more targets than there are strings. -/
theorem length_strings_lt :
    (strings files root).length < depthLimit root (Resolver.fresh files) := by
  have inFile : ∀ file document, (stringsOf file document).length ≤ document.linkCount := by
    intro file document
    rw [stringsOf, List.length_map]
    exact document.length_allRefs_le
  have inFiles : (files.entries.flatMap fun entry => stringsAt files entry.1).length ≤
      files.linkCount := by
    rw [FileTree.linkCount, FileTree.documents, Json.linkCountItems_eq]
    induction files.entries with
    | nil => simp
    | cons entry rest ih =>
      obtain ⟨location, found⟩ := entry
      cases loaded : files.load (FileTree.textOf location) with
      | error fault =>
        have first : (files.load (FileTree.textOf location)).toOption = none := by
          rw [loaded]
          rfl
        have nothing : stringsAt files location = [] := by rw [stringsAt, loaded]
        simpa only [List.flatMap_cons, nothing, List.nil_append, List.filterMap_cons, first] using ih
      | ok document =>
        have first : (files.load (FileTree.textOf location)).toOption = some document := by
          rw [loaded]
          rfl
        have here : (stringsAt files location).length ≤ document.linkCount := by
          rw [stringsAt, loaded]
          exact inFile _ document
        simp only [List.flatMap_cons, List.length_append, List.filterMap_cons, first, List.map_cons,
          List.sum_cons]
        exact Nat.add_le_add here ih
  have inRoot := inFile none root.document
  have limit : depthLimit root (Resolver.fresh files) =
      root.document.linkCount + files.linkCount + 1 := by
    rw [depthLimit, root.links_eq, (Resolver.fresh files).links_eq]
    rfl
  rw [strings, List.length_append, limit]
  omega

/-- A file that is loaded stands among the files. -/
theorem stringsOf_subset {p : Path} (canonical : FileTree.IsCanonical p) {document : Json}
    (loaded : files.load p = .ok document) :
    stringsOf (some p) document ⊆ strings files root := by
  obtain ⟨location, named, rfl⟩ := canonical
  obtain ⟨text, read⟩ := FileTree.read_of_load loaded
  have entry := (FileTree.entry_of_read named read).2
  intro o met
  rw [strings, List.mem_append, List.mem_flatMap]
  refine Or.inr ⟨_, FileTree.mem_of_file entry, ?_⟩
  rw [stringsAt, loaded]
  exact met

/-- What a string leads to that stands at the given place. -/
def meaningAt (files : FileTree) (root : Root) (baseDir : Path) (place : Option Path × String) :
    Except Fault Resolved :=
  meaning files root (originOf baseDir place.1) place.2

/-- The references of a target stand where its file says. -/
theorem origin_of_away {origin : Origin} {raw : String} {t : Resolved}
    (leads : meaning files root origin raw = .ok t) (away : t.isInScope = false) :
    ∃ p document, t.origin = originOf baseDir (some p) ∧ FileTree.IsCanonical p ∧
      files.load p = .ok document ∧ t.node.allRefs ⊆ document.allRefs := by
  obtain ⟨landed, _, _⟩ := landed_meaning leads
  obtain ⟨p, file⟩ := Resolved.exists_file away
  obtain ⟨canonical, _, parent, document, loaded, stands⟩ := landed.there p file
  refine ⟨p, document, ?_, canonical, loaded, Json.allRefs_lookup stands⟩
  rw [Resolved.origin, originOf, file, parent, Option.getD_some]

/-- Every target is given by a string. -/
theorem exists_string {t : Resolved} (h : Reached files root baseDir t) :
    ∃ place ∈ strings files root, meaningAt files root baseDir place = .ok t := by
  cases h with
  | @inRoot raw _ met _ leads _ =>
    refine ⟨(none, raw), ?_, leads⟩
    rw [strings, List.mem_append]
    exact Or.inl (List.mem_map.mpr ⟨raw, (Json.mem_allRefs _).mpr (Or.inl met), rfl⟩)
  | @inTarget s raw _ before _ met leads _ =>
    obtain ⟨away, origin, given, leadsTo⟩ := before.leads
    obtain ⟨p, document, same, canonical, loaded, within⟩ := origin_of_away leadsTo away
    refine ⟨(some p, raw), stringsOf_subset canonical loaded ?_, ?_⟩
    · have met := within ((Json.mem_allRefs _).mpr (Or.inl met))
      exact List.mem_map.mpr ⟨raw, met, rfl⟩
    · rw [meaningAt, ← same]
      exact leads

/-- There are fewer targets than the walk allows for. -/
theorem Sound.length_lt {active targets : List Resolved} {w : Walk}
    (h : Sound files root baseDir active targets w) :
    targets.length < depthLimit root (Resolver.fresh files) := by
  have given : targets ⊆ (strings files root).filterMap fun place =>
      (meaningAt files root baseDir place).toOption := by
    intro t member
    obtain ⟨place, isString, leads⟩ := exists_string (h.reached t member).1
    refine List.mem_filterMap.mpr ⟨place, isString, ?_⟩
    rw [leads]
    rfl
  have few := (List.subperm_of_subset (List.Nodup.of_map _ h.unique) given).length_le
  have fewer := List.length_filterMap_le (fun place =>
    (meaningAt files root baseDir place).toOption) (strings files root)
  have all := @length_strings_lt files root
  omega

end Merge

end ApiGraph
