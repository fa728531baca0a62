import ApiGraph.Merge.Basic
import ApiGraph.Proofs.Effect.Meets
import ApiGraph.Proofs.FileTree.Canonical
import ApiGraph.Proofs.Reference.Text
import ApiGraph.Reference.Resolve

/-! Where references lead. A resolver keeps only what it would load again, so what it finds does
not depend on what it did before (`yields_resolve`): `outcome` is the end of a reference on files
that stay as they are. `Landed` says what a target is like that was reached, and
`outcome_of_target` that a reference to a node that is no reference itself is followed for one
step. -/

namespace ApiGraph

namespace FileTree

variable {files : FileTree} {p : Path} {document : Json}

theorem read_of_load (h : files.load p = .ok document) : ∃ text, files.read p = .ok text := by
  rw [load] at h
  cases format : Format.ofPath p with
  | error fault =>
    rw [format, error_bind] at h
    cases h
  | ok kind =>
    simp only [format, ok_bind] at h
    split at h
    · exact ⟨_, ‹_›⟩
    · cases h

/-- A document stands in a file, and so below a directory. -/
theorem exists_parent (canonical : IsCanonical p) (h : files.load p = .ok document) :
    ∃ directory, p.parent? = some directory := by
  obtain ⟨text, read⟩ := read_of_load h
  obtain ⟨location, named, rfl⟩ := canonical
  refine ⟨_, parent?_textOf named ?_⟩
  rintro rfl
  have entry := (entry_of_read named read).2
  unfold entry? at entry
  simp at entry

end FileTree

namespace Resolved

variable {t : Resolved}

theorem file_eq_none (here : t.isInScope = true) : t.file = none := by
  simpa [isInScope] using here

theorem exists_file (away : t.isInScope = false) : ∃ p, t.file = some p := by
  simpa [isInScope, Option.isNone_eq_false_iff, Option.isSome_iff_exists] using away

end Resolved

namespace Resolver

/-- What a reference leads to in the document that stands in the target file. -/
def arrive (scope : Scope) (origin : Origin) (ref : Reference) (target : Option Path)
    (document : Json) : Except Fault Resolved :=
  match ref.fragment.lookup document with
  | none => .error (.brokenReference ref.text .noTarget)
  | some node =>
    let here := inScope scope target
    let file := if here then none else target
    let home := file <|> scope.file
    .ok {
      node
      name := nameOf node ref.fragment home
      baseDir := if here then scope.baseDir else (target.bind Path.parent?).getD origin.baseDir
      file
      fragment := ref.fragment
      canonical := (home.map Path.text).getD "" ++ "#" ++ ref.fragment.text }

/-- The target of one step, on files that stay as they are. -/
def target (files : FileTree) (scope : Scope) (origin : Origin) (ref : Reference) :
    Except Fault Resolved := do
  let target ← targetFile files origin ref
  let document ←
    if inScope scope target then .ok scope.document else files.load (target.getD origin.baseDir)
  arrive scope origin ref target document

/-- The end of a reference that is followed for at most so many steps. -/
def lastOf (files : FileTree) (scope : Scope) (chain : List String) (origin : Origin)
    (ref : Reference) : Nat → Except Fault Resolved
  | 0 => .error (.referenceCycle chain)
  | steps + 1 => do
    let t ← target files scope origin ref
    if t.canonical ∈ chain then .error (.referenceCycle (chain ++ [t.canonical]))
    else
      match aliasTarget? t.node with
      | none => return t
      | some next =>
        let ref ← Reference.ofText next
        lastOf files scope (chain ++ [t.canonical]) ⟨t.file <|> scope.file, t.baseDir⟩ ref steps

/-- The end of a reference that is read from a document. -/
def outcome (files : FileTree) (scope : Scope) (ref : Reference) : Except Fault Resolved :=
  lastOf files scope [] ⟨scope.file, scope.baseDir⟩ ref (scope.links + files.linkCount + 2)

/-- What a resolver keeps is what it would load. -/
structure Consistent (files : FileTree) (r : Resolver) : Prop where
  same : r.files = files
  kept : ∀ p, FileTree.IsCanonical p → ∀ document, r.cache.get? p.text = some document →
    files.load p = .ok document

theorem consistent_fresh (files : FileTree) : Consistent files (fresh files) where
  same := rfl
  kept := by simp [fresh]

/-- From the given resolver the act comes to the result. What is kept afterwards is what would be
loaded, also if the act has failed. -/
def Yields (files : FileTree) (r : Resolver) {α : Type} (act : ResolveM α)
    (result : Except Fault α) : Prop :=
  ∃ r', act.run.run r = (result, r') ∧ Consistent files r'

namespace Yields

variable {files : FileTree} {r : Resolver} {α β : Type} {act : ResolveM α} {result : Except Fault α}

theorem pure (consistent : Consistent files r) {a : α} : Yields files r (Pure.pure a) (.ok a) :=
  ⟨r, rfl, consistent⟩

theorem throw (consistent : Consistent files r) {fault : Fault} :
    Yields files r (throw fault : ResolveM α) (.error fault) :=
  ⟨r, rfl, consistent⟩

theorem bind {next : α → ResolveM β} {later : α → Except Fault β}
    (h : Yields files r act result)
    (each : ∀ a r', result = .ok a → Consistent files r' → Yields files r' (next a) (later a)) :
    Yields files r (act >>= next) (result >>= later) := by
  obtain ⟨r', run, consistent⟩ := h
  cases result with
  | ok a =>
    obtain ⟨r'', rest, kept⟩ := each a r' rfl consistent
    refine ⟨r'', ?_, kept⟩
    rw [run_run_bind, run]
    exact rest
  | error fault =>
    refine ⟨r', ?_, consistent⟩
    rw [run_run_bind, run]
    rfl

theorem get_bind {next : Resolver → ResolveM α} (h : Yields files r (next r) result) :
    Yields files r (get >>= next) result := h

theorem lift (consistent : Consistent files r) :
    Yields files r (liftM result : ResolveM α) result := by
  cases result with
  | ok a => exact pure consistent
  | error fault => exact throw consistent

end Yields

/-- A file outside of the document in scope is known by its canonical path. -/
def Known (scope : Scope) (origin : Origin) : Prop :=
  ∀ p, origin.file = some p → inScope scope (some p) = false → FileTree.IsCanonical p

theorem known_scope (scope : Scope) (baseDir : Path) : Known scope ⟨scope.file, baseDir⟩ := by
  intro p place away
  simp only at place
  simp [inScope, place] at away

variable {files : FileTree} {scope : Scope} {origin : Origin} {ref : Reference} {r : Resolver}

/-- A document that was loaded is kept from then on. -/
theorem yields_load (h : Consistent files r) {p : Path} (canonical : FileTree.IsCanonical p) :
    Yields files r (load p) (files.load p) := by
  rw [load]
  apply Yields.get_bind
  rw [canonical.normal]
  cases kept : r.cache.get? p.text with
  | some document =>
    rw [h.kept p canonical document kept]
    exact Yields.pure h
  | none =>
    simp only [h.same]
    cases loaded : files.load p with
    | error fault => exact Yields.throw h
    | ok document =>
    refine ⟨_, rfl, rfl, ?_⟩
    intro q canonical' other found
    simp only [Table.get?_insert] at found
    split at found
    · rename_i same
      cases found
      have path : p = q := by
        obtain ⟨text⟩ := p
        obtain ⟨text'⟩ := q
        simpa using same
      rw [← path, loaded]
    · exact h.kept q canonical' other found

theorem targetFile_canonical (known : Known scope origin) {target : Option Path}
    (h : targetFile files origin ref = .ok target) {p : Path} (place : target = some p)
    (away : inScope scope target = false) : FileTree.IsCanonical p := by
  subst place
  cases ref with
  | inFile fragment =>
    simp only [targetFile, Except.ok.injEq] at h
    exact known p h away
  | external path fragment =>
    simp only [targetFile] at h
    split at h
    · cases h
      exact FileTree.isCanonical_of_canonicalize ‹_›
    · cases h
    · cases h

theorem yields_hop (h : Consistent files r) (known : Known scope origin) :
    Yields files r (hop scope origin ref) (target files scope origin ref) := by
  rw [hop, target]
  apply Yields.get_bind
  rw [h.same]
  apply Yields.bind (Yields.lift h)
  intro place r found h
  by_cases here : inScope scope place = true
  · simp only [here, ↓reduceIte]
    apply Yields.bind (Yields.pure h)
    intro document r _ h
    simp only [arrive, here, ↓reduceIte]
    cases ref.fragment.lookup document with
    | none => exact Yields.throw h
    | some node => exact Yields.pure h
  · simp only [here, Bool.false_eq_true, ↓reduceIte]
    have away : inScope scope place = false := by simpa using here
    obtain ⟨p, rfl⟩ : ∃ p, place = some p := by
      cases place with
      | none => cases away
      | some p => exact ⟨p, rfl⟩
    apply Yields.bind (yields_load h (targetFile_canonical known found rfl away))
    intro document r _ h
    simp only [arrive, away, Bool.false_eq_true, ↓reduceIte]
    cases ref.fragment.lookup document with
    | none => exact Yields.throw h
    | some node => exact Yields.pure h

/-- What a target is like that was reached. -/
structure Landed (files : FileTree) (scope : Scope) (t : Resolved) : Prop where
  named : t.name = nameOf t.node t.fragment (t.file <|> scope.file)
  keyed : t.canonical =
    ((t.file <|> scope.file).map Path.text).getD "" ++ "#" ++ t.fragment.text
  here : t.file = none → t.fragment.lookup scope.document = some t.node ∧ t.baseDir = scope.baseDir
  there : ∀ p, t.file = some p → FileTree.IsCanonical p ∧ inScope scope (some p) = false ∧
    p.parent? = some t.baseDir ∧
    ∃ document, files.load p = .ok document ∧ t.fragment.lookup document = some t.node

theorem landed_target (known : Known scope origin) {t : Resolved}
    (h : target files scope origin ref = .ok t) :
    t.fragment = ref.fragment ∧ Landed files scope t := by
  rw [target] at h
  cases found : targetFile files origin ref with
  | error fault =>
    rw [found] at h
    cases h
  | ok place =>
    rw [found] at h
    by_cases here : inScope scope place = true
    · simp only [arrive, here, ok_bind, ↓reduceIte] at h
      split at h
      · cases h
      · cases h
        refine ⟨rfl, rfl, rfl, ?_, by simp⟩
        exact fun _ => ⟨‹_›, rfl⟩
    · have away : inScope scope place = false := by simpa using here
      obtain ⟨p, rfl⟩ : ∃ p, place = some p := by
        cases place with
        | none => cases away
        | some p => exact ⟨p, rfl⟩
      simp only [arrive, away, ok_bind, Bool.false_eq_true, ↓reduceIte, Option.getD_some] at h
      cases loaded : files.load p with
      | error fault => simp [loaded, error_bind] at h
      | ok document =>
        simp only [loaded, ok_bind] at h
        split at h
        · cases h
        · cases h
          refine ⟨rfl, rfl, rfl, by simp, ?_⟩
          rintro q same
          cases same
          have canonical := targetFile_canonical known found rfl away
          obtain ⟨baseDir, parent⟩ := FileTree.exists_parent canonical loaded
          refine ⟨canonical, away, ?_, document, loaded, ‹_›⟩
          simp [parent]

/-- The file of a target is the one that its reference leads to, unless that is in scope. -/
theorem file_of_target {t : Resolved} (h : target files scope origin ref = .ok t) :
    ∃ place, targetFile files origin ref = .ok place ∧
      t.file = if inScope scope place then none else place := by
  obtain ⟨place, found, h⟩ := bind_eq_ok.mp h
  have arrived : ∃ document, arrive scope origin ref place document = .ok t := by
    split at h
    · exact ⟨_, h⟩
    · obtain ⟨document, _, h⟩ := bind_eq_ok.mp h
      exact ⟨document, h⟩
  obtain ⟨document, h⟩ := arrived
  refine ⟨place, found, ?_⟩
  rw [arrive] at h
  split at h
  · cases h
  · cases h
    rfl

/-- A target outside of the document is known by its file and its fragment. -/
theorem Landed.eq_of_place {scope' : Scope} {s t : Resolved} (hs : Landed files scope s)
    (ht : Landed files scope' t) {p : Path} (sFile : s.file = some p) (tFile : t.file = some p)
    (fragment : s.fragment = t.fragment) : s = t := by
  obtain ⟨_, _, parent, document, loaded, found⟩ := ht.there p tFile
  obtain ⟨_, _, sParent, sDocument, sLoaded, sFound⟩ := hs.there p sFile
  rw [loaded] at sLoaded
  cases sLoaded
  rw [fragment, found] at sFound
  rw [parent] at sParent
  have node := Option.some.inj sFound
  have name : s.name = t.name := by
    rw [hs.named, ht.named, sFile, tFile, fragment, node]
    rfl
  have canonical : s.canonical = t.canonical := by
    rw [hs.keyed, ht.keyed, sFile, tFile, fragment]
    rfl
  have baseDir := Option.some.inj sParent
  cases s
  cases t
  simp_all

theorem Landed.known {t : Resolved} (h : Landed files scope t) :
    Known scope ⟨t.file <|> scope.file, t.baseDir⟩ := by
  intro p place away
  cases file : t.file with
  | none =>
    rw [file] at place
    exact known_scope scope t.baseDir p place away
  | some q =>
    rw [file] at place
    cases place
    exact (h.there p file).1

theorem yields_follow (chain : List String) (steps : Nat) (h : Consistent files r)
    (known : Known scope origin) :
    Yields files r (follow scope chain origin ref steps)
      (lastOf files scope chain origin ref steps) := by
  induction steps generalizing chain origin ref r with
  | zero => exact Yields.throw h
  | succ steps ih =>
    rw [follow, lastOf]
    apply Yields.bind (yields_hop h known)
    intro t r found h
    by_cases again : t.canonical ∈ chain
    · simp only [again, ↓reduceIte]
      exact Yields.throw h
    · simp only [again, ↓reduceIte]
      cases aliasTarget? t.node with
      | none => exact Yields.pure h
      | some raw =>
        apply Yields.bind (Yields.lift h)
        exact fun ref r _ h => ih _ h (landed_target known found).2.known

/-- What a resolver finds does not depend on what it has loaded before. -/
theorem yields_resolve (h : Consistent files r) :
    Yields files r (resolve scope ref) (outcome files scope ref) := by
  rw [resolve]
  apply Yields.get_bind
  have limit : stepLimit scope r = scope.links + files.linkCount + 2 := by
    rw [stepLimit, r.links_eq, h.same]
  rw [limit]
  exact yields_follow _ _ h (known_scope scope scope.baseDir)

/-- The end of a reference string that is read from a document. -/
def outcomeOf (files : FileTree) (scope : Scope) (raw : String) : Except Fault Resolved :=
  Reference.ofText raw >>= outcome files scope

theorem yields_resolveText (h : Consistent files r) {raw : String} :
    Yields files r (resolveText scope raw) (outcomeOf files scope raw) := by
  rw [resolveText, outcomeOf]
  exact Yields.bind (Yields.lift h) fun ref r _ h => yields_resolve h

theorem resolveText_fresh {raw : String} :
    ((resolveText scope raw).run.run (fresh files)).1 = outcomeOf files scope raw := by
  obtain ⟨_, run, _⟩ := @yields_resolveText _ scope _ (consistent_fresh files) raw
  rw [run]

/-- Following stays among places that no step leads out of, and ends at no reference. -/
theorem lastOf_closed {within : Origin → Reference → Prop} {reached : Resolved → Prop}
    (step : ∀ {origin ref t}, within origin ref → target files scope origin ref = .ok t →
      reached t ∧ ∀ next ref', aliasTarget? t.node = some next → Reference.ofText next = .ok ref' →
        within ⟨t.file <|> scope.file, t.baseDir⟩ ref')
    {chain : List String} {steps : Nat} {t : Resolved} (start : within origin ref)
    (h : lastOf files scope chain origin ref steps = .ok t) :
    reached t ∧ aliasTarget? t.node = none := by
  induction steps generalizing chain origin ref with
  | zero => cases h
  | succ steps ih =>
    obtain ⟨first, found, h⟩ := bind_eq_ok.mp h
    obtain ⟨isReached, onward⟩ := step start found
    split at h
    · cases h
    · split at h
      · rename_i ended
        cases h
        exact ⟨isReached, ended⟩
      · rename_i next isNext
        obtain ⟨ref, read, h⟩ := bind_eq_ok.mp h
        exact ih (onward next ref isNext read) h

/-- The end of a reference is a target that is no reference itself. -/
theorem landed_end {chain : List String} {steps : Nat} {t : Resolved} (known : Known scope origin)
    (written : ref.fragment.Written) (h : lastOf files scope chain origin ref steps = .ok t) :
    Landed files scope t ∧ t.fragment.Written ∧ aliasTarget? t.node = none := by
  have step : ∀ {origin ref t}, Known scope origin ∧ ref.fragment.Written →
      target files scope origin ref = .ok t → (Landed files scope t ∧ t.fragment.Written) ∧
        ∀ next ref', aliasTarget? t.node = some next → Reference.ofText next = .ok ref' →
          Known scope ⟨t.file <|> scope.file, t.baseDir⟩ ∧ ref'.fragment.Written := by
    intro origin ref t within found
    obtain ⟨fragment, landed⟩ := landed_target within.1 found
    exact ⟨⟨landed, fragment ▸ within.2⟩,
      fun _ _ _ read => ⟨landed.known, Reference.fragment_written read⟩⟩
  obtain ⟨⟨landed, written⟩, ended⟩ := lastOf_closed step ⟨known, written⟩ h
  exact ⟨landed, written, ended⟩

theorem landed_outcome {t : Resolved} (written : ref.fragment.Written)
    (h : outcome files scope ref = .ok t) :
    Landed files scope t ∧ t.fragment.Written ∧ aliasTarget? t.node = none :=
  landed_end (known_scope scope scope.baseDir) written h

/-- A target that is no reference is the end. -/
theorem outcome_of_target {t : Resolved}
    (h : target files scope ⟨scope.file, scope.baseDir⟩ ref = .ok t)
    (ended : aliasTarget? t.node = none) : outcome files scope ref = .ok t := by
  rw [outcome, lastOf, h, ok_bind, if_neg (by simp), ended]
  rfl

theorem inScope_file (scope : Scope) : inScope scope scope.file = true := by
  cases file : scope.file <;> simp [inScope, file]

/-- The file of the document is the one file in scope. -/
theorem inScope_iff {root p : Path} (file : scope.file = some root)
    (canonical : FileTree.IsCanonical root) (canonical' : FileTree.IsCanonical p) :
    inScope scope (some p) = true ↔ p = root := by
  simp only [inScope, file, Option.map_some, canonical.normal, canonical'.normal, beq_iff_eq,
    Option.some.injEq]
  exact eq_comm

/-- A local reference leads to its fragment of the document in scope. -/
theorem target_inFile {fragment : Fragment} {node : Json} (baseDir : Path)
    (h : fragment.lookup scope.document = some node) :
    ∃ t, target files scope ⟨scope.file, baseDir⟩ (.inFile fragment) = .ok t ∧
      t.node = node ∧ t.fragment = fragment ∧ t.file = none := by
  refine ⟨⟨node, nameOf node fragment scope.file, scope.baseDir, none, fragment,
    (scope.file.map Path.text).getD "" ++ "#" ++ fragment.text⟩, ?_, rfl, rfl, rfl⟩
  simp [target, targetFile, ok_bind, inScope_file, arrive, Reference.fragment, h]

/-- A reference to a file leads to its fragment of the document that stands there, which for the
file in scope is the document in scope. -/
theorem target_external {path q : Path} {fragment : Fragment} {document node : Json}
    (found : files.canonicalize (origin.baseDir.join path) = .ok q)
    (stands : if inScope scope (some q) = true then scope.document = document
      else files.load q = .ok document)
    (there : fragment.lookup document = some node) :
    ∃ t, target files scope origin (.external path fragment) = .ok t ∧ t.node = node ∧
      t.fragment = fragment ∧ t.file = if inScope scope (some q) = true then none else some q := by
  have place : targetFile files origin (.external path fragment) = .ok (some q) := by
    simp only [targetFile, found]
  rw [target, place, ok_bind]
  by_cases here : inScope scope (some q) = true
  · rw [if_pos here] at stands
    simp [here, arrive, Reference.fragment, stands, there, ok_bind]
  · rw [if_neg here] at stands
    simp [here, arrive, Reference.fragment, stands, there, ok_bind]

/-! A document alone. -/

theorem load_empty (p : Path) {document : Json} : FileTree.load {} p ≠ .ok document := by
  intro loaded
  obtain ⟨text, read⟩ := FileTree.read_of_load loaded
  rw [FileTree.read] at read
  cases found : FileTree.locate {} p with
  | error fault =>
    rw [found, error_bind] at read
    cases read
  | ok location =>
    rw [found, ok_bind] at read
    by_cases root : location.isEmpty = true
    · simp [root, FileTree.entry?] at read
    · simp [root, FileTree.entry?, FileTree.lookup] at read

/-- What a reference string leads to in a document without any files. -/
def alone (document : Json) (raw : String) : Except Fault Resolved :=
  ((resolveText ((Merge.Root.of document none).scope Path.here) raw).run.run (fresh {})).1

/-- In the document alone the reference string leads to the given node at the given place, and the
node is no reference. -/
def LeadsTo (document : Json) (raw : String) (place : Fragment) (node : Json) : Prop :=
  ∃ t, alone document raw = .ok t ∧ t.fragment = place ∧ t.node = node ∧
    aliasTarget? node = none

theorem alone_eq (document : Json) (raw : String) :
    alone document raw = outcomeOf {} { document, file := none, baseDir := Path.here } raw :=
  resolveText_fresh

/-- A place behind a hash is led to if it can be written so and holds a node that is no
reference. -/
theorem leadsTo_hash_iff {document node : Json} {place : Fragment} :
    LeadsTo document ("#" ++ place.text) place node ↔
      place.Written ∧ place ≠ .document ∧ place.lookup document = some node ∧
        aliasTarget? node = none := by
  constructor
  · rintro ⟨t, found, rfl, rfl, ended⟩
    rw [alone_eq, outcomeOf] at found
    cases read : Reference.ofText ("#" ++ t.fragment.text) with
    | error fault =>
      rw [read, error_bind] at found
      cases found
    | ok ref =>
      rw [read, ok_bind] at found
      obtain ⟨landed, written, _⟩ := landed_outcome (Reference.fragment_written read) found
      have here : t.file = none := by
        cases place : t.file with
        | none => rfl
        | some p =>
          obtain ⟨_, _, _, document, loaded, _⟩ := landed.there p place
          exact absurd loaded (load_empty p)
      refine ⟨written, ?_, (landed.here here).1, ended⟩
      intro whole
      rw [whole, Reference.ofText_hash_document] at read
      cases read
  · rintro ⟨written, filled, found, ended⟩
    obtain ⟨t, first, rfl, rfl, _⟩ :=
      @target_inFile {} { document, file := none, baseDir := .here } _ _ Path.here found
    refine ⟨t, ?_, rfl, rfl, ended⟩
    rw [alone_eq, outcomeOf, Reference.ofText_hash written filled, ok_bind]
    exact outcome_of_target first ended

end Resolver

end ApiGraph
