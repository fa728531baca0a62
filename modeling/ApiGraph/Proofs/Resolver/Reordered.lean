import ApiGraph.Proofs.OpenApi.Description
import ApiGraph.Proofs.Resolver.Unbounded

/-! References that are read from two documents. If a step in the one comes to a node that resembles
the one that it comes to in the other, under the same name and from the same directory, a chain
takes the same way in both (`Follows.simulated`), and neither run knows of a limit
(`outcomeOf_simulated`). So it is with the definitions of a document in another order
(`outcomeOf_reordered`). -/

namespace ApiGraph

open Record (Resembles)

/-- Targets that differ at most in their node, which is the same record. -/
structure Resolved.Alike (names : List String) (t t' : Resolved) : Prop where
  node : Resembles names t.node t'.node
  besides : t' = { t with node := t'.node }

namespace Resolver

variable {files : FileTree} {names : List String} {scope scope' : Scope}

theorem inScope_alike (file : scope'.file = scope.file) (target : Option Path) :
    inScope scope' target = inScope scope target := by
  cases target <;> simp only [inScope, file]

theorem nameOf_resembles (titled : "title" ∈ names) {node node' : Json}
    (h : Resembles names node node') (fragment : Fragment) (file : Option Path) :
    nameOf node' fragment file = nameOf node fragment file := by
  rw [nameOf, nameOf, h.get? titled]

theorem aliasTarget?_resembles (refers : refKey ∈ names) {node node' : Json}
    (h : Resembles names node node') : aliasTarget? node' = aliasTarget? node := by
  rw [aliasTarget?, aliasTarget?, h.get? refers]

theorem arrive_alike (file : scope'.file = scope.file) (baseDir : scope'.baseDir = scope.baseDir)
    (titled : "title" ∈ names) {origin : Origin} {ref : Reference} {place : Option Path}
    {document document' : Json} {t : Resolved}
    (found : ref.fragment.lookup document = some t.node →
      ∃ node', ref.fragment.lookup document' = some node' ∧ Resembles names t.node node')
    (arrives : arrive scope origin ref place document = .ok t) :
    ∃ t', arrive scope' origin ref place document' = .ok t' ∧ t.Alike names t' := by
  simp only [arrive] at arrives ⊢
  cases there : ref.fragment.lookup document with
  | none =>
    rw [there] at arrives
    cases arrives
  | some node =>
    rw [there] at arrives
    obtain rfl := Except.ok.inj arrives
    obtain ⟨node', there', resembles⟩ := found there
    rw [there']
    refine ⟨_, rfl, resembles, ?_⟩
    simp only [inScope_alike file, file, baseDir, nameOf_resembles titled resembles]

/-- A step leads to the same record, if it is there in the other document in scope. -/
theorem target_alike (file : scope'.file = scope.file) (baseDir : scope'.baseDir = scope.baseDir)
    (titled : "title" ∈ names) {origin : Origin} {ref : Reference} {t : Resolved}
    (found : t.file = none → ref.fragment.lookup scope.document = some t.node →
      ∃ node', ref.fragment.lookup scope'.document = some node' ∧ Resembles names t.node node')
    (leads : target files scope origin ref = .ok t) :
    ∃ t', target files scope' origin ref = .ok t' ∧ t.Alike names t' := by
  obtain ⟨place, isPlace, leads⟩ := bind_eq_ok.mp leads
  rw [target, isPlace, ok_bind, inScope_alike file]
  by_cases here : inScope scope place = true
  · simp only [here, ↓reduceIte, ok_bind] at leads ⊢
    refine arrive_alike file baseDir titled (found ?_) leads
    simp only [arrive, here] at leads
    split at leads
    · cases leads
    · cases leads
      rfl
  · simp only [here, Bool.false_eq_true, ↓reduceIte] at leads ⊢
    obtain ⟨document, loaded, leads⟩ := bind_eq_ok.mp leads
    rw [loaded, ok_bind]
    exact arrive_alike file baseDir titled (fun found => ⟨t.node, found, .same t.node⟩) leads

/-- What a step with one scope leads to, a step with the other one leads to as well, and so on. -/
theorem Follows.simulated {safe : Origin → Reference → Prop} (refers : refKey ∈ names)
    (file : scope'.file = scope.file)
    (step : ∀ {origin : Origin} {ref : Reference} {t : Resolved}, safe origin ref →
      target files scope origin ref = .ok t →
      ∃ t', target files scope' origin ref = .ok t' ∧ t.Alike names t' ∧
        ∀ raw next, aliasTarget? t.node = some raw → Reference.ofText raw = .ok next →
          safe ⟨t.file <|> scope.file, t.baseDir⟩ next)
    {chain : List String} {origin : Origin} {ref : Reference} {t : Resolved}
    (isSafe : safe origin ref) {reads : List Path}
    (h : Follows files scope chain origin ref reads (.ok t)) :
    ∃ reads' t', Follows files scope' chain origin ref reads' (.ok t') ∧ t.Alike names t' := by
  generalize isEnd : Except.ok t = result at h
  induction h with
  | lost | again | unread => cases isEnd
  | ended found new ended =>
    obtain rfl := Except.ok.inj isEnd
    obtain ⟨t', found', same, _⟩ := step isSafe found
    have canonical : t'.canonical = t.canonical := by rw [same.besides]
    exact ⟨_, t', .ended found' (canonical ▸ new)
      ((aliasTarget?_resembles refers same.node).trans ended), same⟩
  | @onward chain origin ref next s raw reads result found new leads isNext later ih =>
    obtain ⟨s', found', same, onward⟩ := step isSafe found
    obtain ⟨reads', t', follows, sameEnd⟩ := ih (onward raw next leads isNext) isEnd
    have besides := same.besides
    have canonical : s'.canonical = s.canonical := by rw [besides]
    have place : (⟨s'.file <|> scope'.file, s'.baseDir⟩ : Origin) =
        ⟨s.file <|> scope.file, s.baseDir⟩ := by
      rw [besides, file]
    rw [← canonical, ← place] at follows
    exact ⟨_, t', .onward found' (canonical ▸ new)
      ((aliasTarget?_resembles refers same.node).trans leads) isNext follows, sameEnd⟩

/-- A reference string leads to the same record, if every step on its way does. -/
theorem outcomeOf_simulated {safe : Origin → Reference → Prop} (refers : refKey ∈ names)
    (file : scope'.file = scope.file) (baseDir : scope'.baseDir = scope.baseDir)
    (step : ∀ {origin : Origin} {ref : Reference} {t : Resolved}, safe origin ref →
      target files scope origin ref = .ok t →
      ∃ t', target files scope' origin ref = .ok t' ∧ t.Alike names t' ∧
        ∀ raw next, aliasTarget? t.node = some raw → Reference.ofText raw = .ok next →
          safe ⟨t.file <|> scope.file, t.baseDir⟩ next)
    {raw : String} {t : Resolved}
    (isSafe : ∀ ref, Reference.ofText raw = .ok ref → safe ⟨scope.file, scope.baseDir⟩ ref)
    (leads : outcomeOf files scope raw = .ok t) :
    ∃ t', outcomeOf files scope' raw = .ok t' ∧ t.Alike names t' := by
  obtain ⟨ref, read, leads⟩ := bind_eq_ok.mp leads
  obtain ⟨_, follows, _⟩ := reads_resolve files scope ref
  rw [leads] at follows
  obtain ⟨_, t', follows', same⟩ := follows.simulated refers file step (isSafe ref read)
  rw [← file, ← baseDir] at follows'
  exact ⟨t', bind_eq_ok.mpr ⟨ref, read, (reads_of_follows follows').1⟩, same⟩

/-- With the definitions of the document in scope in another order, a reference string leads to the
same record. -/
theorem outcomeOf_reordered {schemas : Table Json}
    (perm : schemas.Perm (Merge.definitionsOf scope.document))
    (unique : (Merge.definitionsOf scope.document).keys.Nodup) (file : scope'.file = scope.file)
    (baseDir : scope'.baseDir = scope.baseDir)
    (document : scope'.document = Merge.withDefinitions (fun _ => schemas) scope.document)
    {raw : String} {t : Resolved} (leads : outcomeOf files scope raw = .ok t) :
    ∃ t', outcomeOf files scope' raw = .ok t' ∧ t.Alike Schema.fieldNames t' := by
  have step : ∀ {origin : Origin} {ref : Reference} {t : Resolved}, True →
      target files scope origin ref = .ok t →
      ∃ t', target files scope' origin ref = .ok t' ∧ t.Alike Schema.fieldNames t' ∧
        ∀ raw next, aliasTarget? t.node = some raw → Reference.ofText raw = .ok next → True := by
    intro origin ref t _ found
    have stands : t.file = none → ref.fragment.lookup scope.document = some t.node →
        ∃ node', ref.fragment.lookup scope'.document = some node' ∧
          Resembles Schema.fieldNames t.node node' := by
      intro _ there
      rw [document]
      exact Merge.exists_lookup perm unique (by decide) (by decide) there
    obtain ⟨t', found', same⟩ := target_alike file baseDir (by decide) stands found
    exact ⟨t', found', same, fun _ _ _ _ => trivial⟩
  exact outcomeOf_simulated (by decide) file baseDir step (fun _ _ => trivial) leads

end Resolver

end ApiGraph
