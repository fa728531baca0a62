import ApiGraph.FileTree.Basic
import ApiGraph.Proofs.Text.Trim

/-! Canonical paths. The way to a file is followed by names alone, so a canonical path is the text
of a location made of names (`isCanonical_of_canonicalize`): it is in normal form already, and it
leads to its own location (`locate_eq`). -/

namespace ApiGraph

/-- A location made of names. -/
def Location.Named (location : Location) : Prop := ∀ name ∈ location, FileTree.isName name = true

namespace FileTree

theorem isName_iff {name : String} : isName name = true ↔
    Path.isIdle name.toList = false ∧ name.toList ≠ ['.', '.'] ∧ '/' ∉ name.toList := by
  simp [isName, and_assoc]

/-! Text of a location. -/

theorem split_intercalate {first : String} {rest : List String}
    (h : Location.Named (first :: rest)) :
    Text.split '/' (String.intercalate "/" (first :: rest)).toList =
      (first :: rest).map String.toList := by
  induction rest generalizing first with
  | nil =>
    have slash := (isName_iff.mp (h first (by simp))).2.2
    simp [Text.split_of_not_mem slash]
  | cons second rest ih =>
    have slash := (isName_iff.mp (h first (by simp))).2.2
    have named : Location.Named (second :: rest) :=
      fun name member => h name (List.mem_cons_of_mem _ member)
    have later := ih named
    have whole : (String.intercalate "/" (first :: second :: rest)).toList =
        first.toList ++ '/' :: (String.intercalate "/" (second :: rest)).toList := by
      simp [String.intercalate_cons_cons, String.toList_append]
    rw [whole, Text.split_append slash, later]
    rfl

theorem textOf_nil : textOf [] = ⟨"/"⟩ := by
  simp [textOf]

theorem toList_textOf (location : Location) :
    (textOf location).text.toList = '/' :: (String.intercalate "/" location).toList := by
  rw [textOf, String.toList_append]
  rfl

theorem pieces_textOf {first : String} {rest : List String}
    (h : Location.Named (first :: rest)) :
    (textOf (first :: rest)).pieces = [] :: (first :: rest).map String.toList := by
  rw [Path.pieces, toList_textOf, Text.split, if_pos rfl, split_intercalate h]

theorem pieces_root : (textOf []).pieces = [[], []] := by
  rw [textOf_nil]
  decide

theorem join_map (first : String) (rest : List String) :
    Text.join ['/'] ((first :: rest).map String.toList) =
      (String.intercalate "/" (first :: rest)).toList := by
  induction rest generalizing first with
  | nil => simp [Text.join]
  | cons second rest ih =>
    have later := ih second
    simp only [List.map_cons] at later ⊢
    rw [Text.join, later, String.intercalate_cons_cons]
    · simp [String.toList_append]
    · simp

theorem ofPieces_names (first : String) (rest : List String) :
    Path.ofPieces ([] :: (first :: rest).map String.toList) = textOf (first :: rest) := by
  have longer : ([] :: (first :: rest).map String.toList) ≠ [[]] := by simp
  rw [Path.ofPieces, if_neg longer]
  have same : Text.join ['/'] ([] :: (first :: rest).map String.toList) =
      (textOf (first :: rest)).text.toList := by
    rw [toList_textOf, ← join_map]
    simp [Text.join]
  rw [same, String.ofList_toList]

/-- The text of a location is in normal form. -/
theorem normal_textOf {location : Location} (h : location.Named) :
    (textOf location).normal = textOf location := by
  cases location with
  | nil =>
    rw [textOf_nil]
    decide
  | cons first rest =>
    have filled : (textOf (first :: rest)).text.isEmpty = false := by
      have start := toList_textOf (first :: rest)
      cases empty : (textOf (first :: rest)).text.isEmpty with
      | false => rfl
      | true =>
        rw [String.isEmpty_iff.mp empty] at start
        cases start
    have busy : ((first :: rest).map String.toList).filter (fun piece => !Path.isIdle piece) =
        (first :: rest).map String.toList := by
      rw [List.filter_eq_self]
      intro piece member
      obtain ⟨name, place, rfl⟩ := List.mem_map.mp member
      simp [(isName_iff.mp (h name place)).1]
    rw [Path.normal, filled, pieces_textOf h]
    simp only [Bool.false_eq_true, ↓reduceIte, List.take_succ_cons, List.take_zero,
      List.drop_succ_cons, List.drop_zero, List.singleton_append, busy]
    exact ofPieces_names first rest

/-! Following a path. -/

theorem named_home (tree : FileTree) : Location.Named tree.home := by
  intro name member
  exact (List.mem_filter.mp member).2

theorem named_follow {tree : FileTree} {location reached : Location}
    {pieces : List (List Char)} (h : tree.follow location pieces = .ok reached)
    (named : location.Named) (bare : ∀ piece ∈ pieces, '/' ∉ piece) : reached.Named := by
  induction pieces generalizing location with
  | nil =>
    cases h
    exact named
  | cons piece rest ih =>
    have later : ∀ piece ∈ rest, '/' ∉ piece := fun p member => bare p (by simp [member])
    rw [follow] at h
    split at h
    · split at h
      · exact ih h named later
      · rename_i busy
        split at h
        · exact ih h (fun name member => named name (List.dropLast_subset _ member)) later
        · rename_i up
          simp only at h
          split at h
          · cases h
          · split at h
            · refine ih h ?_ later
              intro name member
              rcases List.mem_append.mp member with old | new
              · exact named name old
              · rw [List.mem_singleton.mp new, isName_iff, String.toList_ofList]
                exact ⟨by simpa using busy, up, bare piece (by simp)⟩
            · cases h
    · cases h
    · cases h

theorem bare_pieces (p : Path) : ∀ piece ∈ p.pieces, '/' ∉ piece :=
  fun _ member => Text.not_mem_of_mem_split member

theorem named_locate {tree : FileTree} {p : Path} {location : Location}
    (h : tree.locate p = .ok location) : location.Named := by
  rw [locate] at h
  split at h
  · cases h
  split at h
  · cases h
  refine named_follow h ?_ (bare_pieces p)
  split
  · simp [Location.Named]
  · exact named_home tree

theorem canonicalize_eq_ok {tree : FileTree} {p q : Path} (h : tree.canonicalize p = .ok q) :
    ∃ location, tree.locate p = .ok location ∧ location.Named ∧ q = textOf location := by
  rw [canonicalize] at h
  cases found : tree.locate p with
  | error fault =>
    rw [found] at h
    cases h
  | ok location =>
    rw [found] at h
    cases h
    exact ⟨location, rfl, named_locate found, rfl⟩

/-- Names are followed as they stand. -/
theorem follow_names {tree : FileTree} {location reached : Location} {names : List String}
    (named : Location.Named names)
    (h : tree.follow location (names.map String.toList) = .ok reached) :
    reached = location ++ names := by
  induction names generalizing location with
  | nil =>
    cases h
    simp
  | cons first rest ih =>
    have name := isName_iff.mp (named first (by simp))
    have later : Location.Named rest := fun n member => named n (by simp [member])
    rw [List.map_cons, follow] at h
    split at h
    · rw [if_neg (by simp [name.1]), if_neg name.2.1] at h
      simp only [String.ofList_toList] at h
      split at h
      · cases h
      · split at h
        · rw [ih later h]
          simp
        · cases h
    · cases h
    · cases h

/-- The text of a location leads to the location, if it leads anywhere. -/
theorem locate_eq {tree : FileTree} {location reached : Location} (named : location.Named)
    (h : tree.locate (textOf location) = .ok reached) : reached = location := by
  have absolute : (textOf location).isAbsolute = true := by
    rw [Path.isAbsolute, toList_textOf]
    rfl
  rw [locate] at h
  split at h
  · cases h
  split at h
  · cases h
  have root : ∀ pieces, tree.follow [] ([] :: pieces) = tree.follow [] pieces := by
    intro pieces
    rw [follow]
    simp [Path.isIdle, entry?]
  cases location with
  | nil =>
    rw [pieces_root, root, root] at h
    cases h
    rfl
  | cons first rest =>
    rw [pieces_textOf named, root] at h
    simpa using follow_names named h

/-- The path of a location made of names. -/
def IsCanonical (p : Path) : Prop := ∃ location : Location, location.Named ∧ p = textOf location

theorem isCanonical_of_canonicalize {tree : FileTree} {p q : Path}
    (h : tree.canonicalize p = .ok q) : IsCanonical q := by
  obtain ⟨location, _, named, rfl⟩ := canonicalize_eq_ok h
  exact ⟨location, named, rfl⟩

theorem IsCanonical.normal {p : Path} (h : IsCanonical p) : p.normal = p := by
  obtain ⟨location, named, rfl⟩ := h
  exact normal_textOf named

/-- A file stands at its canonical path. -/
theorem entry_of_read {tree : FileTree} {location : Location} (named : location.Named)
    {text : String} (h : tree.read (textOf location) = .ok text) :
    tree.locate (textOf location) = .ok location ∧ tree.entry? location = some (.file text) := by
  rw [read] at h
  cases found : tree.locate (textOf location) with
  | error fault =>
    rw [found] at h
    cases h
  | ok reached =>
    have same := locate_eq named found
    subst same
    rw [found] at h
    simp only [bind, Except.bind] at h
    split at h
    · cases h
      exact ⟨rfl, ‹_›⟩
    · cases h
    · cases h

/-- The names before an empty first piece, from the last to the first. -/
theorem dropIdle_names {names : Location} (named : names.Named) :
    Path.dropIdle ((names.map String.toList).reverse ++ [[]]) =
      (names.map String.toList).reverse ++ [[]] := by
  rcases List.eq_nil_or_concat names with rfl | ⟨front, last, rfl⟩
  · rfl
  · have busy := (isName_iff.mp (named last (by simp))).1
    rw [List.concat_eq_append, List.map_append, List.reverse_append]
    cases rest : (front.map String.toList).reverse with
    | nil => simp [Path.dropIdle, busy]
    | cons piece more => simp [Path.dropIdle, busy]

theorem ofPieces_location (location : Location) :
    Path.ofPieces ([] :: location.map String.toList) = textOf location := by
  cases location with
  | nil => simp [Path.ofPieces, textOf]
  | cons first rest => exact ofPieces_names first rest

/-- The directory of a file is where its location without the last name leads. -/
theorem parent?_textOf {location : Location} (named : location.Named) (filled : location ≠ []) :
    (textOf location).parent? = some (textOf location.dropLast) := by
  obtain ⟨first, rest, rfl⟩ := List.exists_cons_of_ne_nil filled
  have pieces := pieces_textOf named
  rcases List.eq_nil_or_concat (first :: rest) with nothing | ⟨front, last, whole⟩
  · cases nothing
  · rw [List.concat_eq_append] at whole
    rw [whole] at named pieces ⊢
    have above : Location.Named front := fun name member => named name (by simp [member])
    rw [Path.parent?, pieces, List.reverse_cons, dropIdle_names named, List.map_append,
      List.reverse_append, List.dropLast_concat]
    have rest : Path.dropIdle ((front.map String.toList).reverse ++ [[]]) =
        (front.map String.toList).reverse ++ [[]] := dropIdle_names above
    cases before : (front.map String.toList).reverse ++ [[]] with
    | nil => simp at before
    | cons piece more =>
      simp only [List.map_cons, List.map_nil, List.reverse_singleton, List.cons_append,
        List.nil_append, before]
      rw [before] at rest
      rw [rest, ← before, List.reverse_append, List.reverse_reverse, List.reverse_singleton,
        List.singleton_append, ofPieces_location]

/-- A canonical path at which a file stands is its own canonical path. -/
theorem canonicalize_of_read {tree : FileTree} {p : Path} (h : IsCanonical p) {text : String}
    (there : tree.read p = .ok text) : tree.canonicalize p = .ok p := by
  obtain ⟨location, named, rfl⟩ := h
  rw [canonicalize, (entry_of_read named there).1]
  rfl

/-! The names on a canonical path. -/

variable {tree : FileTree} {location : Location} {name : String}

theorem exists_entry_of_lookup {entries : List (Location × FileEntry)}
    (there : (lookup entries location).isSome = true) : ∃ e ∈ entries, e.1 = location := by
  induction entries with
  | nil => cases there
  | cons e rest ih =>
    rw [lookup] at there
    split at there
    · exact ⟨e, List.mem_cons_self, ‹_›⟩
    · obtain ⟨e', member, place⟩ := ih there
      exact ⟨e', List.mem_cons_of_mem _ member, place⟩

/-- A path leads through names at which it starts, or at which something stands. -/
theorem mem_of_follow {reached : Location} {pieces : List (List Char)}
    (h : tree.follow location pieces = .ok reached) (member : name ∈ reached) :
    name ∈ location ∨ ∃ e ∈ tree.entries, name ∈ e.1 := by
  induction pieces generalizing location with
  | nil =>
    cases h
    exact Or.inl member
  | cons piece rest ih =>
    rw [follow] at h
    split at h
    · split at h
      · exact ih h
      split at h
      · exact (ih h).imp_left fun above => List.dropLast_subset _ above
      simp only at h
      split at h
      · cases h
      split at h
      · rename_i there
        unfold entry? at there
        rw [if_neg (by simp)] at there
        obtain ⟨e, isEntry, place⟩ := exists_entry_of_lookup there
        exact (ih h).elim (fun within => Or.inr ⟨e, isEntry, place ▸ within⟩) Or.inr
      · cases h
    · cases h
    · cases h

theorem mem_intercalate {c : Char} (member : c ∈ (String.intercalate "/" location).toList) :
    c = '/' ∨ ∃ name ∈ location, c ∈ name.toList := by
  induction location with
  | nil => simp at member
  | cons first rest ih =>
    cases rest with
    | nil => exact Or.inr ⟨first, List.mem_cons_self, by simpa using member⟩
    | cons second rest =>
      rw [String.intercalate_cons_cons] at member
      simp only [String.toList_append, List.mem_append] at member
      rcases member with (here | slash) | later
      · exact Or.inr ⟨first, List.mem_cons_self, here⟩
      · exact Or.inl (List.mem_singleton.mp slash)
      · rcases ih later with slash | ⟨name, within, inName⟩
        · exact Or.inl slash
        · exact Or.inr ⟨name, List.mem_cons_of_mem _ within, inName⟩

end FileTree

end ApiGraph
