import ApiGraph.FileTree.Basic
import ApiGraph.Proofs.Effect.Meets

/-! Reading what was written. A file that is put where no directory stands leaves every way through
the tree as it was, so its path leads to it and its text is read (`read_of_write`). -/

namespace ApiGraph.FileTree

theorem lookup_put (entries : List (Location × FileEntry)) (place : Location) (entry : FileEntry)
    (location : Location) :
    lookup (put entries place entry) location =
      if place = location then some entry else lookup entries location := by
  induction entries with
  | nil => rfl
  | cons first rest ih =>
    obtain ⟨other, old⟩ := first
    rw [put]
    split
    · subst other
      rw [lookup, lookup]
      split
      · rfl
      · rfl
    · rename_i apart
      rw [lookup, ih, lookup]
      by_cases same : other = location
      · rw [if_pos same, if_pos same, if_neg fun clash => apart (same.trans clash.symm)]
      · rw [if_neg same, if_neg same]

/-- The tree with one entry put in place. -/
def withEntry (tree : FileTree) (place : Location) (entry : FileEntry) : FileTree :=
  { tree with entries := put tree.entries place entry }

theorem entry?_withEntry {tree : FileTree} {place : Location} (inner : place ≠ [])
    (entry : FileEntry) (location : Location) :
    entry? (tree.withEntry place entry) location =
      if place = location then some entry else tree.entry? location := by
  unfold entry?
  by_cases root : location.isEmpty = true
  · have apart : place ≠ location := by
      rintro rfl
      exact inner (List.isEmpty_iff.mp root)
    rw [if_pos root, if_neg apart, if_pos root]
  · rw [if_neg root, if_neg root]
    exact lookup_put tree.entries place entry location

theorem follow_append (tree : FileTree) (location : Location) (pieces more : List (List Char)) :
    tree.follow location (pieces ++ more) =
      tree.follow location pieces >>= fun reached => tree.follow reached more := by
  induction pieces generalizing location with
  | nil => rfl
  | cons piece rest ih =>
    rw [List.cons_append, follow, follow]
    split
    · split
      · exact ih _
      · split
        · exact ih _
        · simp only
          split
          · rfl
          · split
            · exact ih _
            · rfl
    · rfl
    · rfl

/-- A way stays open when an entry is put where no directory stands. -/
theorem follow_withEntry {tree : FileTree} {place : Location} (inner : place ≠ [])
    (entry : FileEntry) (free : tree.entry? place ≠ some .directory) {location reached : Location}
    {pieces : List (List Char)} (h : tree.follow location pieces = .ok reached) :
    (tree.withEntry place entry).follow location pieces = .ok reached := by
  induction pieces generalizing location with
  | nil => exact h
  | cons piece rest ih =>
    rw [follow] at h ⊢
    split at h
    · rename_i directory
      -- What is passed through is a directory, and so it is not what was put in place.
      have apart : place ≠ location := by
        rintro rfl
        exact free directory
      rw [entry?_withEntry inner, if_neg apart, directory]
      simp only at h ⊢
      split at h
      · rename_i idle
        rw [if_pos idle]
        exact ih h
      · rename_i busy
        rw [if_neg busy]
        split at h
        · rename_i up
          rw [if_pos up]
          exact ih h
        · rename_i down
          rw [if_neg down]
          split at h
          · cases h
          · rename_i short
            rw [if_neg short]
            split at h
            · rename_i there
              rw [if_pos, ih h]
              rw [entry?_withEntry inner]
              split
              · rfl
              · exact there
            · cases h
    · cases h
    · cases h

/-- An empty piece at the end leads on only from a directory. -/
theorem directory_of_follow {tree : FileTree} {location reached : Location}
    (h : tree.follow location [[]] = .ok reached) :
    location = reached ∧ tree.entry? reached = some .directory := by
  rw [follow] at h
  split at h
  · rename_i directory
    cases h
    exact ⟨rfl, directory⟩
  · cases h
  · cases h

/-- What it takes to write a file: a name, in a directory that is there, at which none stands. -/
structure Writable (tree : FileTree) (p : Path) (directory : Location) (name : List Char) :
    Prop where
  filled : p.text.isEmpty = false
  proper : p.text.toList.contains (Char.ofNat 0) = false
  busy : Path.isIdle name = false
  down : name ≠ ['.', '.']
  short : ¬ nameLimit < (String.ofList name).utf8ByteSize
  split : ∃ above, p.pieces = above ++ [name] ∧
    tree.follow (if p.isAbsolute then [] else tree.home) above = .ok directory
  there : tree.entry? directory = some .directory
  free : tree.entry? (directory ++ [String.ofList name]) ≠ some .directory

theorem write_eq_ok {tree written : FileTree} {p : Path} {text : String}
    (h : tree.write p text = .ok written) : ∃ directory name, tree.Writable p directory name ∧
      written = tree.withEntry (directory ++ [String.ofList name]) (.file text) := by
  rw [write] at h
  split at h
  · cases h
  rename_i name above pieces
  simp only [error_bind] at h
  split at h
  · cases h
  rename_i filled
  split at h
  · cases h
  rename_i proper
  obtain ⟨directory, way, h⟩ := bind_eq_ok.mp h
  split at h
  · cases h
  rename_i busy
  split at h
  · cases h
  rename_i short
  split at h
  · cases h
  rename_i free
  cases h
  rw [follow_append] at way
  obtain ⟨reached, front, last⟩ := bind_eq_ok.mp way
  obtain ⟨rfl, there⟩ := directory_of_follow last
  have parts : p.pieces = above.reverse ++ [name] := by
    rw [← List.reverse_reverse p.pieces, pieces, List.reverse_cons]
  simp only [Bool.or_eq_true, decide_eq_true_eq, not_or, Bool.not_eq_true] at filled proper busy
  exact ⟨reached, name, ⟨filled, proper, busy.1, busy.2, short, ⟨_, parts, front⟩, there, free⟩, rfl⟩

/-- A file that was written is read as it was written. -/
theorem read_of_write {tree written : FileTree} {p : Path} {text : String}
    (h : tree.write p text = .ok written) : written.read p = .ok text := by
  obtain ⟨directory, name, writable, same⟩ := write_eq_ok h
  obtain ⟨above, pieces, way⟩ := writable.split
  have inner : directory ++ [String.ofList name] ≠ [] := by simp
  have apart : directory ++ [String.ofList name] ≠ directory := by simp
  have after (location : Location) : written.entry? location =
      if directory ++ [String.ofList name] = location then some (.file text)
      else tree.entry? location := by
    rw [same]
    exact entry?_withEntry inner (.file text) location
  have front : written.follow (if p.isAbsolute then [] else written.home) above = .ok directory := by
    rw [same]
    exact follow_withEntry inner (.file text) writable.free way
  have last : written.follow directory [name] = .ok (directory ++ [String.ofList name]) := by
    rw [follow, after, if_neg apart, writable.there]
    simp [writable.busy, writable.down, writable.short, after, follow]
  have located : written.locate p = .ok (directory ++ [String.ofList name]) := by
    rw [locate, writable.filled, writable.proper, pieces, follow_append]
    exact bind_eq_ok.mpr ⟨directory, front, last⟩
  rw [read, located, ok_bind, after, if_pos rfl]

end ApiGraph.FileTree
