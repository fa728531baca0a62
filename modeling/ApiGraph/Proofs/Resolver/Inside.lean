import ApiGraph.Proofs.Resolver.Unbounded

/-! References that stay inside of the document in scope. `Asks` gives the strings that the resolver
comes upon when it starts from a string and stays in the document. If none of them leads to a file,
nothing is read and the files do not count (`Follows.inside`). If one of them does, the reference
comes to nothing where there are no files (`Follows.staysInside`). -/

namespace ApiGraph.Resolver

/-- The string leads to a file, if there is one. -/
def LeadsOut (raw : String) : Prop :=
  ∃ path fragment, Reference.ofText raw = .ok (.external path fragment)

/-- The strings that are come upon in a document, from one to the next. -/
inductive Asks (document : Json) : String → String → Prop
  | self (raw : String) : Asks document raw raw
  | onward {raw next last : String} {place : Fragment} {node : Json}
    (read : Reference.ofText raw = .ok (.inFile place))
    (found : place.lookup document = some node) (leads : aliasTarget? node = some next)
    (later : Asks document next last) : Asks document raw last

/-- No string that is come upon leads to a file. -/
def StaysInside (document : Json) (raw : String) : Prop :=
  ∀ last, Asks document raw last → ¬ LeadsOut last

variable {files : FileTree} {scope : Scope} {chain : List String} {origin : Origin}
  {ref : Reference} {raw : String}

/-- A string that is come upon later is the first one, or one that stands in the document. -/
theorem Asks.mem_allRefs {document : Json} {last : String} (h : Asks document raw last) :
    last = raw ∨ last ∈ document.allRefs := by
  induction h with
  | self raw => exact Or.inl rfl
  | @onward raw next last place node _ found leads _ ih =>
    rcases ih with rfl | member
    · refine Or.inr (Json.allRefs_lookup found ?_)
      exact (Json.mem_allRefs _).mpr (Or.inl (Json.mem_refs_of_aliasTarget? leads))
    · exact Or.inr member

theorem not_leadsOut_of_local (isLocal : Reference.IsLocalText raw) : ¬ LeadsOut raw :=
  fun ⟨_, _, read⟩ => Reference.not_isLocalText_of_external read isLocal

/-- A local reference in the document leads to its place there, whatever the files are. -/
theorem target_local (files : FileTree) (home : origin.file = scope.file) (place : Fragment) :
    target files scope origin (.inFile place) =
      arrive scope origin (.inFile place) scope.file scope.document ∧
    readBy files scope origin (.inFile place) = none := by
  have found : targetFile files origin (.inFile place) = .ok scope.file := by
    rw [targetFile, home]
  refine ⟨?_, readBy_here found (inScope_file scope)⟩
  rw [target, found, ok_bind, if_pos (inScope_file scope), ok_bind]

theorem arrived_local {place : Fragment} {t : Resolved}
    (h : target files scope origin (.inFile place) = .ok t) (home : origin.file = scope.file) :
    place.lookup scope.document = some t.node ∧ t.file = none := by
  rw [(target_local files home place).1, arrive] at h
  split at h
  · cases h
  · rename_i node found
    cases h
    exact ⟨found, if_pos (inScope_file scope)⟩

/-- A step from a string that stays inside: no file counts or is read, and what comes after it stays
inside as well. -/
theorem step_inside (other files : FileTree) (home : origin.file = scope.file)
    (read : Reference.ofText raw = .ok ref) (inside : StaysInside scope.document raw) :
    target other scope origin ref = target files scope origin ref ∧
      (readBy files scope origin ref).toList = [] ∧
      ∀ t, target files scope origin ref = .ok t → t.file = none ∧
        ∀ next, aliasTarget? t.node = some next → StaysInside scope.document next := by
  cases ref with
  | external path place => exact absurd ⟨path, place, read⟩ (inside raw (.self raw))
  | inFile place =>
    obtain ⟨same, unread⟩ := target_local files home place
    refine ⟨(target_local other home place).1.trans same.symm, by rw [unread]; rfl,
      fun t found => ?_⟩
    obtain ⟨there, here⟩ := arrived_local found home
    exact ⟨here, fun next leads last asks => inside last (.onward read there leads asks)⟩

/-- A reference that stays inside comes to the same with all files, and none is read. -/
theorem Follows.inside {other : FileTree} {reads : List Path} {result : Except Fault Resolved}
    (h : Follows other scope chain origin ref reads result) (home : origin.file = scope.file)
    (read : Reference.ofText raw = .ok ref) (inside : StaysInside scope.document raw) :
    Follows files scope chain origin ref [] result := by
  induction h generalizing raw with
  | lost missed =>
    obtain ⟨same, unread, _⟩ := step_inside _ files home read inside
    rw [← unread]
    exact .lost (same ▸ missed)
  | again found passed =>
    obtain ⟨same, unread, _⟩ := step_inside _ files home read inside
    rw [← unread]
    exact .again (same ▸ found) passed
  | ended found new ended =>
    obtain ⟨same, unread, _⟩ := step_inside _ files home read inside
    rw [← unread]
    exact .ended (same ▸ found) new ended
  | unread found new leads isBad =>
    obtain ⟨same, unread, _⟩ := step_inside _ files home read inside
    rw [← unread]
    exact .unread (same ▸ found) new leads isBad
  | onward found new leads isNext later ih =>
    obtain ⟨same, unread, onward⟩ := step_inside _ files home read inside
    rw [same] at found
    obtain ⟨here, later⟩ := onward _ found
    have whole := Follows.onward found new leads isNext
      (ih (by rw [here]; rfl) isNext (later _ leads))
    rwa [unread, List.nil_append] at whole

/-- The files do not count for a reference that stays inside, and it is followed without loading
any. -/
theorem resolve_inside (files : FileTree) (read : Reference.ofText raw = .ok ref)
    (inside : StaysInside scope.document raw) :
    outcome files scope ref = outcome {} scope ref ∧
      ∀ reads, Reads files reads (resolve scope ref) (outcome {} scope ref) reads := by
  obtain ⟨_, follows, _⟩ := reads_resolve {} scope ref
  have unread : Follows files scope [] ⟨scope.file, scope.baseDir⟩ ref [] (outcome {} scope ref) :=
    follows.inside rfl read inside
  obtain ⟨same, run⟩ := reads_of_follows unread
  exact ⟨same, fun reads => by simpa using run reads⟩

/-- Without files there is the root directory alone. -/
theorem canonicalize_empty {p q : Path} (h : FileTree.canonicalize {} p = .ok q) : q = ⟨"/"⟩ := by
  have stuck : ∀ pieces location, FileTree.follow {} [] pieces = .ok location → location = [] := by
    intro pieces
    induction pieces with
    | nil =>
      rintro location ⟨⟩
      rfl
    | cons piece rest ih =>
      intro location h
      have entry : FileTree.entry? {} [] = some .directory := rfl
      rw [FileTree.follow, entry] at h
      simp only [FileTree.entry?, FileTree.lookup, List.dropLast_nil] at h
      split at h
      · exact ih location h
      · split at h
        · exact ih location h
        · split at h
          · cases h
          · simp at h
  obtain ⟨location, found, rfl⟩ := map_eq_ok.mp h
  rw [FileTree.locate] at found
  split at found
  · cases found
  · split at found
    · cases found
    · have start : FileTree.home {} = [] := rfl
      rw [start, ite_self] at found
      rw [stuck _ _ found]
      rfl

/-- Without files nothing is reached outside of the document. The file in scope must not be the root
directory, which is always there. -/
theorem not_target_external (placed : ∀ p, scope.file = some p → p.normal ≠ ⟨"/"⟩) {path : Path}
    {place : Fragment} {t : Resolved} :
    target {} scope origin (.external path place) ≠ .ok t := by
  intro h
  obtain ⟨target, found, h⟩ := bind_eq_ok.mp h
  rw [targetFile] at found
  split at found
  · rename_i q there
    cases found
    obtain rfl := canonicalize_empty there
    have away : ¬ inScope scope (some ⟨"/"⟩) = true := by
      intro here
      cases file : scope.file with
      | none => simp [inScope, file] at here
      | some p =>
        have same : p.normal = Path.normal ⟨"/"⟩ := by simpa [inScope, file] using here
        exact placed p file (same.trans (by decide))
    rw [if_neg away] at h
    obtain ⟨document, loaded, _⟩ := bind_eq_ok.mp h
    exact load_empty _ loaded
  · cases found
  · cases found

/-- Where there are no files, only references that stay inside come to an end. -/
theorem Follows.staysInside {reads : List Path} {t : Resolved}
    (placed : ∀ p, scope.file = some p → p.normal ≠ ⟨"/"⟩)
    (h : Follows {} scope chain origin ref reads (.ok t)) (home : origin.file = scope.file)
    (read : Reference.ofText raw = .ok ref) : StaysInside scope.document raw := by
  generalize isEnd : Except.ok t = result at h
  have firstInside : ∀ {origin ref s raw}, target {} scope origin ref = .ok s →
      Reference.ofText raw = .ok ref → ∃ place, ref = .inFile place ∧ ¬ LeadsOut raw := by
    intro origin ref s raw found read
    cases ref with
    | inFile place =>
      refine ⟨place, rfl, fun ⟨_, _, other⟩ => ?_⟩
      rw [read] at other
      cases other
    | external path place => exact absurd found (not_target_external placed)
  induction h generalizing raw with
  | lost | again | unread => cases isEnd
  | ended found new ended =>
    obtain ⟨place, rfl, local'⟩ := firstInside found read
    intro last asks
    cases asks with
    | self => exact local'
    | onward read' found' leads =>
      rw [read] at read'
      cases read'
      rw [(arrived_local found home).1] at found'
      cases found'
      rw [ended] at leads
      cases leads
  | onward found new leads isNext later ih =>
    obtain ⟨place, rfl, local'⟩ := firstInside found read
    obtain ⟨there, here⟩ := arrived_local found home
    intro last asks
    cases asks with
    | self => exact local'
    | onward read' found' leads' asks =>
      rw [read] at read'
      cases read'
      rw [there] at found'
      cases found'
      rw [leads] at leads'
      cases leads'
      exact ih (by rw [here]; rfl) isNext isEnd last asks

end ApiGraph.Resolver
