import ApiGraph.Proofs.Reference.Text

/-! Reference strings printed and read again. A reference to a whole file is printed as its path
alone, so the hash that stood behind the path is gone, and white space between the two comes to the
end of the text, where reading cuts it off. That is the only loss: every printed reference can be
read, and it comes back as it was unless it was read from a text that ends in such a hash
(`printed_reads_back_iff`). -/

namespace ApiGraph

open Text (Trimmed isBlank trimEnd)

theorem Fragment.ofChars_ne_document {cs : List Char} (filled : cs ≠ []) :
    ofChars cs ≠ .document := by
  unfold ofChars
  split
  · exact absurd rfl filled
  · simp
  · simp

namespace Reference

/-- White space around a reference does not count. -/
theorem ofText_congr {raw raw' : String} (same : Text.trim raw.toList = Text.trim raw'.toList) :
    ofText raw = ofText raw' := by
  rw [ofText, ofText, same]

/-- A path alone is a reference to a whole file. -/
theorem ofText_path {raw : String} {path : List Char} (trim : Text.trim raw.toList = path)
    (filled : path ≠ []) (bare : '#' ∉ path) (near : Text.contains remoteMark path = false) :
    ofText raw = .ok (.external ⟨String.ofList path⟩ .document) := by
  have near : Text.contains [':', '/', '/'] path = false := near
  have single : (path == ['#']) = false := by
    rw [beq_eq_false_iff_ne]
    rintro rfl
    exact bare (by simp)
  have cut : Text.cutFirst '#' path = none := by
    cases found : Text.cutFirst '#' path with
    | none => rfl
    | some pieces =>
      obtain ⟨whole, _⟩ := Text.cutFirst_eq_some found
      rw [whole] at bare
      simp at bare
  have empty : path.isEmpty = false := by simpa using filled
  simp only [ofText, trim, near, cut, single, empty, Bool.or_self, Bool.false_eq_true, ↓reduceIte]

theorem text_external {path : Path} {fragment : Fragment} (filled : fragment ≠ .document) :
    (external path fragment).text = path.text ++ "#" ++ fragment.text := by
  cases fragment with
  | document => exact absurd rfl filled
  | name | pointer => rfl

section

variable {raw : String} {ref : Reference}

/-- A reference with a fragment is printed as it was read, but for the white space around it. -/
theorem Parts.text_of_fragment (p : Parts raw ref) (filled : p.fragment ≠ []) :
    ref.text.toList = p.path ++ '#' :: p.fragment := by
  obtain ⟨path, fragment, _, _, _, _, rfl⟩ := p
  have named := Fragment.ofChars_ne_document filled
  cases path with
  | nil => simp [text, Fragment.text_ofChars]
  | cons c rest => simp [text_external named, Fragment.text_ofChars]

/-- Without a fragment the whole file is meant. -/
theorem Parts.of_no_fragment (p : Parts raw ref) (empty : p.fragment = []) :
    p.path ≠ [] ∧ ref = .external ⟨String.ofList p.path⟩ .document := by
  obtain ⟨path, fragment, _, _, filled, _, rfl⟩ := p
  obtain rfl : fragment = [] := empty
  rw [List.append_nil] at filled
  exact ⟨filled, by simp [filled, Fragment.ofChars]⟩

theorem Parts.text_of_no_fragment (p : Parts raw ref) (empty : p.fragment = []) :
    ref.text.toList = p.path :=
  (congrArg (fun r => r.text.toList) (p.of_no_fragment empty).2).trans String.toList_ofList

end

/-- White space in front of a hash with nothing behind it, where there is no other hash. -/
def EndsInLooseHash (raw : String) : Prop :=
  ∃ path c, '#' ∉ path ∧ isBlank c = true ∧ Text.trim raw.toList = path ++ [c, '#']

/-- There is no other way to cut a text at its first hash. -/
theorem hash_unique {path path' fragment fragment' : List Char} (bare : '#' ∉ path)
    (bare' : '#' ∉ path') (same : path ++ '#' :: fragment = path' ++ '#' :: fragment') :
    path = path' ∧ fragment = fragment' := by
  have cut := Text.cutFirst_append bare fragment
  rw [same, Text.cutFirst_append bare' fragment'] at cut
  simpa [eq_comm] using cut

/-- A hash is loose if nothing stands behind it, and something is cut off the path before it. -/
theorem endsInLooseHash_iff {raw : String} {path fragment : List Char} (bare : '#' ∉ path)
    (whole : Text.trim raw.toList = path ++ '#' :: fragment) :
    EndsInLooseHash raw ↔ fragment = [] ∧ trimEnd path ≠ path := by
  rw [Ne, Text.trimEnd_eq_self_iff]
  simp only [not_forall, Bool.not_eq_false]
  constructor
  · rintro ⟨front, c, bare', blank, whole'⟩
    have other : '#' ∉ front ++ [c] := by
      have hash : c ≠ '#' := by
        rintro rfl
        exact absurd blank (by decide)
      simp [bare', Ne.symm hash]
    rw [whole, ← List.singleton_append (l := ['#']), ← List.append_assoc] at whole'
    obtain ⟨rfl, rfl⟩ := hash_unique bare other whole'
    exact ⟨rfl, c, by simp, blank⟩
  · rintro ⟨rfl, c, last, blank⟩
    obtain ⟨front, rfl⟩ := List.getLast?_eq_some_iff.mp last
    exact ⟨front, c, fun member => bare (by simp [member]), blank, by simpa using whole⟩

theorem not_endsInLooseHash_of_bare {raw : String} (bare : '#' ∉ Text.trim raw.toList) :
    ¬ EndsInLooseHash raw := by
  rintro ⟨path, c, _, _, loose⟩
  rw [loose] at bare
  simp at bare

section

variable {raw : String} {ref : Reference}

/-- A text that is the one that was read, but for the white space around it, reads the same. -/
theorem reads_back_of_text (read : ofText raw = .ok ref)
    (same : ref.text.toList = Text.trim raw.toList) : ofText ref.text = .ok ref := by
  rw [← read]
  apply ofText_congr
  rw [same, Text.trim_of_trimmed (Text.trimmed_trim raw.toList)]

/-- The path of a whole file with a hash behind it loses the white space at its end. -/
theorem Parts.ofText_text (p : Parts raw ref) (empty : p.fragment = [])
    (whole : Text.trim raw.toList = p.path ++ '#' :: p.fragment) :
    ofText ref.text = .ok (.external ⟨String.ofList (trimEnd p.path)⟩ .document) := by
  obtain ⟨filled, _⟩ := p.of_no_fragment empty
  have front := (Text.trimmed_trim raw.toList).1
  rw [whole] at front
  obtain ⟨c, rest, path⟩ := List.exists_cons_of_ne_nil filled
  have clean : ∀ c ∈ p.path.head?, isBlank c = false := by
    rw [path] at front ⊢
    exact front
  have trim : Text.trim ref.text.toList = trimEnd p.path := by
    rw [p.text_of_no_fragment empty, Text.trim_of_head clean]
  have kept : trimEnd p.path ≠ [] := by
    have first := Text.head?_trim (clean c (by simp [path])) rest
    rw [← path, Text.trim_of_head clean] at first
    exact List.ne_nil_of_mem (List.mem_of_head? first)
  obtain ⟨dropped, split⟩ := Text.exists_trimEnd p.path
  refine ofText_path trim kept (Text.not_mem_trimEnd p.bare) ?_
  have near := p.near
  rw [whole, split, List.append_assoc] at near
  exact Text.contains_of_prefix near

/-- Without a loose hash the reference comes back. -/
theorem Parts.reads_back (p : Parts raw ref) (read : ofText raw = .ok ref)
    (tight : ¬ EndsInLooseHash raw) : ofText ref.text = .ok ref := by
  rcases p.whole with whole | ⟨whole, empty⟩
  · by_cases empty : p.fragment = []
    · rw [endsInLooseHash_iff p.bare whole, and_iff_right empty, not_not] at tight
      rw [p.ofText_text empty whole, tight, ← (p.of_no_fragment empty).2]
    · exact reads_back_of_text read ((p.text_of_fragment empty).trans whole.symm)
  · exact reads_back_of_text read ((p.text_of_no_fragment empty).trans whole.symm)

/-- With one, the path comes back shorter. -/
theorem Parts.reads_shorter (p : Parts raw ref) (loose : EndsInLooseHash raw) :
    ∃ path, ref = .external path .document ∧ trimEnd path.text.toList ≠ path.text.toList ∧
      ofText ref.text = .ok (.external ⟨String.ofList (trimEnd path.text.toList)⟩ .document) := by
  have whole : Text.trim raw.toList = p.path ++ '#' :: p.fragment := by
    refine p.whole.resolve_right fun h => not_endsInLooseHash_of_bare ?_ loose
    rw [h.1]
    exact p.bare
  obtain ⟨empty, shorter⟩ := (endsInLooseHash_iff p.bare whole).mp loose
  have again := p.ofText_text empty whole
  rw [← @String.toList_ofList p.path] at shorter again
  exact ⟨_, (p.of_no_fragment empty).2, shorter, again⟩

/-- A printed reference can be read. It comes back as it was, unless it was read from a path with
white space and one hash behind it; then the path has lost the white space at its end. -/
theorem printed_reads_back_iff (read : ofText raw = .ok ref) :
    (ofText ref.text = .ok ref ↔ ¬ EndsInLooseHash raw) ∧
    (EndsInLooseHash raw → ∃ path, ref = .external path .document ∧ ofText ref.text =
      .ok (.external ⟨String.ofList (trimEnd path.text.toList)⟩ .document)) := by
  obtain ⟨p⟩ := parts_of_ofText read
  refine ⟨⟨fun same loose => ?_, p.reads_back read⟩, fun loose => ?_⟩
  · obtain ⟨path, rfl, shorter, again⟩ := p.reads_shorter loose
    rw [again] at same
    have texts := congrArg (fun p : Path => p.text.toList)
      (Reference.external.inj (Except.ok.inj same)).1
    exact shorter (String.toList_ofList.symm.trans texts)
  · obtain ⟨path, isFile, _, again⟩ := p.reads_shorter loose
    exact ⟨path, isFile, again⟩

end

/-- A path that ends in white space, with two hashes behind it, and white space around all. -/
theorem spacedPets_read_back : ∃ raw ref, ofText raw = .ok ref ∧
    ref = .external ⟨"my pets.json "⟩ (.pointer "/Pet#1") ∧ ¬ EndsInLooseHash raw ∧
    ofText ref.text = .ok ref := by
  have read : ofText "  my pets.json #/Pet#1 " =
      .ok (.external ⟨"my pets.json "⟩ (.pointer "/Pet#1")) := by decide +kernel
  have whole : Text.trim "  my pets.json #/Pet#1 ".toList =
      "my pets.json ".toList ++ '#' :: "/Pet#1".toList := by decide +kernel
  have tight : ¬ EndsInLooseHash "  my pets.json #/Pet#1 " := by
    rw [endsInLooseHash_iff (by decide) whole]
    exact fun h => absurd h.1 (by decide)
  exact ⟨_, _, read, rfl, tight, (printed_reads_back_iff read).1.mpr tight⟩

/-- Without the hash the white space at the end of the path is cut off. -/
theorem pets_do_not_read_back : ∃ raw ref, ofText raw = .ok ref ∧ ofText ref.text ≠ .ok ref :=
  ⟨"pets.json #", .external ⟨"pets.json "⟩ .document, by decide +kernel⟩

end Reference

end ApiGraph
