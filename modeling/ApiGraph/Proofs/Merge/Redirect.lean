import ApiGraph.Proofs.Merge.Meaning

/-! Merges that bring nothing in. If everything outside that a document refers to is called like a
definition that the document has, merging only redirects its references to these definitions
(`Redirects.exists_result`). The converse holds as well, since a target takes the name of another
one only if the two have one key (`Account.inlined_eq_nil_iff`). -/

namespace ApiGraph.Merge

section

variable (files : FileTree) (root : Root) (baseDir : Path)

/-- What the strings of a document lead to outside of it is called like a definition that the
document has. -/
def Redirects : Prop :=
  ∀ raw ∈ root.document.refs, ¬ Stays ⟨none, baseDir⟩ raw → ∃ t,
    meaning files root ⟨none, baseDir⟩ raw = .ok t ∧ (t.isInScope = true ∨ t.name ∈ root.authored)

/-- The form of a string of the document that is redirected to the definition of the name. -/
def redirect (raw : String) : String :=
  if Stays ⟨none, baseDir⟩ raw then raw
  else
    match meaning files root ⟨none, baseDir⟩ raw with
    | .error _ => raw
    | .ok t => if t.isInScope then "#" ++ t.fragment.text else definitionRef t.name

/-- Of the targets that the document itself refers to, those with one key have one name. -/
def NamedByKey : Prop :=
  ∀ s t, Near files root baseDir s → Near files root baseDir t →
    s.canonical = t.canonical → s.name = t.name

end

variable {files : FileTree} {root : Root} {document : Json} {file : Option Path} {baseDir : Path}
  {targets : List Resolved} {names : Table String} {m : Merged} {t : Resolved}

theorem redirect_of_away {raw : String}
    (away : Away files root ⟨none, baseDir⟩ raw t) :
    redirect files root baseDir raw = definitionRef t.name := by
  simp [redirect, away.moves, away.leads, away.away]

namespace Redirects

theorem authored (h : Redirects files root baseDir) (reached : Reached files root baseDir t) :
    t.name ∈ root.authored := by
  induction reached with
  | inRoot met moves leads away =>
    obtain ⟨t, leads', here | authored⟩ := h _ met moves
    · rw [leads] at leads'
      cases leads'
      rw [away] at here
      cases here
    · rw [leads] at leads'
      cases leads'
      exact authored
  | inTarget _ brought _ _ _ ih => exact absurd ih brought

theorem not_brought (h : Redirects files root baseDir) (reached : Reached files root baseDir t) :
    ¬ t.name ∉ root.authored := fun brought => brought (h.authored reached)

theorem targets_eq_nil (h : Redirects files root baseDir)
    (reached : ∀ t ∈ targets, Reached files root baseDir t ∧ t.name ∉ root.authored ∧
      t.node.isObject = true) : targets = [] :=
  List.eq_nil_iff_forall_not_mem.mpr fun t member =>
    h.not_brought (reached t member).1 (reached t member).2.1

/-- Nothing stands in the way of a merge that brings nothing in. -/
theorem exists_result (h : Redirects files (Root.of document file) baseDir)
    (isObject : document.isObject = true)
    (reads : ∀ raw ∈ document.refs, ∃ ref, Reference.ofText raw = .ok ref) :
    ∃ m, result files document file baseDir = .ok m := by
  refine exists_ok_of_blames isObject ?_ ?_
  · constructor
    case text =>
      intro origin node raw fault visited met unread
      cases visited with
      | document =>
        obtain ⟨ref, read⟩ := reads raw met
        rw [read] at unread
        cases unread
      | target reached brought => exact h.not_brought reached brought
    case meaning =>
      intro origin node raw fault visited met moves lost
      cases visited with
      | document =>
        obtain ⟨t, leads, _⟩ := h raw met moves
        rw [leads] at lost
        cases lost
      | target reached brought => exact h.not_brought reached brought
    case collision => exact fun _ reached brought _ _ => h.not_brought reached brought
    case shape => exact fun reached brought _ _ => h.not_brought reached brought
    case depth =>
      intro active targets w sound many
      rw [h.targets_eq_nil sound.reached, depthLimit] at many
      cases many
  · intro targets w sound form fault failed
    rw [sound.inlined_eq, h.targets_eq_nil sound.reached] at failed
    cases failed

end Redirects

namespace Account

/-- If nothing is brought in, what the document refers to is referred to by its own name, and the
document has a definition of this name. -/
theorem named_of_near (account : Account files root baseDir [] names m)
    (byKey : NamedByKey files root baseDir) (near : Near files root baseDir t) :
    names.get? t.canonical = some t.name ∧ t.name ∈ root.authored := by
  obtain ⟨raw, met, away⟩ := near
  obtain ⟨t', leads, settled⟩ := (account.settledRoot raw met).resolve_left away.moves
  rw [away.leads] at leads
  obtain rfl := Except.ok.inj leads
  obtain ⟨name, named⟩ := settled.resolve_left (by simp [away.away])
  obtain ⟨s, before, key, rfl⟩ := account.early rfl _ _ named
  obtain ⟨_, _, _, _, place⟩ := account.known _ _ named
  have same := byKey s t before ⟨raw, met, away⟩ key
  rw [same] at named place
  exact ⟨named, place.resolve_right (by simp)⟩

/-- A merge that brings nothing in redirects the strings of the document. -/
theorem localForm_eq_redirect (account : Account files root baseDir [] names m)
    (byKey : NamedByKey files root baseDir) {raw : String} (met : raw ∈ root.document.refs) :
    localForm files root names ⟨none, baseDir⟩ raw = redirect files root baseDir raw := by
  rw [localForm, redirect]
  split
  · rfl
  · rename_i moves
    cases leads : meaning files root ⟨none, baseDir⟩ raw with
    | error fault => rfl
    | ok t =>
      by_cases here : t.isInScope = true
      · simp only [here, ↓reduceIte]
      · have away : Away files root ⟨none, baseDir⟩ raw t := ⟨moves, leads, by simpa using here⟩
        have named := (account.named_of_near byKey ⟨raw, met, away⟩).1
        simp only [here, named, Bool.false_eq_true, ↓reduceIte, Option.map_some, Option.getD_some]

/-- A merge brings nothing in exactly if it only redirects. -/
theorem inlined_eq_nil_iff (account : Account files root baseDir targets names m)
    (byKey : NamedByKey files root baseDir) : m.inlined = [] ↔ Redirects files root baseDir := by
  rw [account.inlined, List.map_eq_nil_iff]
  constructor
  · rintro rfl raw met moves
    obtain ⟨t, leads, _⟩ := (account.settledRoot raw met).resolve_left moves
    refine ⟨t, leads, ?_⟩
    by_cases here : t.isInScope = true
    · exact Or.inl here
    · exact Or.inr (account.named_of_near byKey ⟨raw, met, moves, leads, by simpa using here⟩).2
  · exact fun redirects => redirects.targets_eq_nil account.reached

/-- What a merge that brings nothing in comes to. -/
theorem document_eq_redirected (account : Account files root baseDir targets names m)
    (byKey : NamedByKey files root baseDir) (nothing : m.inlined = []) :
    m.document = root.document.mapRefs (redirect files root baseDir) := by
  have added := account.document
  have inlined := account.inlined
  rw [nothing] at added inlined
  obtain rfl := List.map_eq_nil_iff.mp inlined.symm
  rw [← Except.ok.inj added]
  exact Json.mapRefs_congr fun raw met => account.localForm_eq_redirect byKey met

end Account

end ApiGraph.Merge
