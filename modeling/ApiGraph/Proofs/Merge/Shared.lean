import ApiGraph.Compile
import ApiGraph.Proofs.Effect.Agree
import ApiGraph.Proofs.Merge.Account

/-! Merges that share what they have loaded. A merge reads files through a resolver that an earlier
merge may have used, and leaves it for the next one. That does not show: what comes out, a fault
included, is what comes out with a resolver that has loaded nothing (`yields_document`,
`yields_file`), and the documents that are kept stay those of the files. -/

namespace ApiGraph

namespace Merge

open Resolver (Consistent Origin Yields)

/-- Two walks that have done the same, each with its own resolver. -/
structure Alongside (files : FileTree) (w w' : Walk) : Prop where
  consistent : Consistent files w.resolver
  consistent' : Consistent files w'.resolver
  same : w' = { w with resolver := w'.resolver }

variable {files : FileTree} {root : Root} {document : Json} {file : Option Path} {baseDir : Path}
  {w w' : Walk}

namespace Alongside

theorem exists_resolver (h : Alongside files w w') : ∃ r', Consistent files r' ∧
    w' = { w with resolver := r' } := ⟨w'.resolver, h.consistent', h.same⟩

theorem of_consistent {r r' : Resolver} (w : Walk) (h : Consistent files r)
    (h' : Consistent files r') :
    Alongside files { w with resolver := r } { w with resolver := r' } := ⟨h, h', rfl⟩

theorem of_ledger {r r' : Resolver} (l : Ledger) (h : Consistent files r)
    (h' : Consistent files r') : Alongside files (l.walk r) (l.walk r') := ⟨h, h', rfl⟩

end Alongside

theorem agrees_look (origin : Origin) (raw : String) (h : Alongside files w w') :
    Agrees (Alongside files) (look root origin raw) (look root origin raw) w w' := by
  obtain ⟨r', consistent', rfl⟩ := h.exists_resolver
  rw [look]
  apply Agrees.lift_bind h
  intro ref _
  split
  · exact Agrees.pure h none
  · obtain ⟨s, run, kept⟩ := @Resolver.yields_resolve _ (root.scope origin.baseDir)
      ((origin.file.map ref.within).getD ref) _ h.consistent
    obtain ⟨s', run', kept'⟩ := @Resolver.yields_resolve _ (root.scope origin.baseDir)
      ((origin.file.map ref.within).getD ref) _ consistent'
    rw [map_eq_pure_bind, withResolver, bind_assoc]
    apply Agrees.get_bind
    simp only [run, run']
    cases Resolver.outcome files (root.scope origin.baseDir)
      ((origin.file.map ref.within).getD ref) with
    | ok t => exact Agrees.pure (.of_consistent w kept kept') (some t)
    | error fault => exact Agrees.throw (.of_consistent w kept kept') fault

theorem agrees_rewriteRef {bring : Resolved → WalkM Json}
    (brings : ∀ t w w', Alongside files w w' →
      Agrees (Alongside files) (bring t) (bring t) w w')
    (raw : String) (w w' : Walk) (h : Alongside files w w') :
    Agrees (Alongside files) (rewriteRef root bring file baseDir raw)
      (rewriteRef root bring file baseDir raw) w w' := by
  rw [rewriteRef_eq root bring ⟨file, baseDir⟩]
  apply Agrees.bind (agrees_look ⟨file, baseDir⟩ raw h)
  intro found w w' h
  apply Agrees.get_bind
  obtain ⟨r', consistent', rfl⟩ := h.exists_resolver
  -- The two walks have one ledger, so the verdict is the same for both.
  have same : ({ w with resolver := r' } : Walk).ledger = w.ledger := rfl
  rw [same]
  cases judge root raw w.ledger (.ok found) with
  | fails fault => exact Agrees.throw h fault
  | writes form l' =>
    apply Agrees.modify_bind
    exact Agrees.pure (.of_ledger l' h.consistent consistent') form
  | enters t =>
    apply Agrees.modify_bind
    apply Agrees.bind (brings t _ _ (.of_ledger _ h.consistent consistent'))
    intro node w w' h
    obtain ⟨r', consistent', rfl⟩ := h.exists_resolver
    apply Agrees.modify_bind
    exact Agrees.pure ⟨h.consistent, consistent', rfl⟩ _

theorem agrees_bring (depth : Nat) (t : Resolved) (w w' : Walk) (h : Alongside files w w') :
    Agrees (Alongside files) (bring root depth t) (bring root depth t) w w' := by
  induction depth generalizing t w w' with
  | zero =>
    obtain ⟨r', consistent', rfl⟩ := h.exists_resolver
    rw [bring]
    exact Agrees.get_bind (Agrees.throw h _)
  | succ depth ih =>
    rw [bring]
    exact agrees_mapRefsM (agrees_rewriteRef ih) w w' h

theorem agrees_walk (depth : Nat) {r : Resolver} (h : Consistent files r) :
    Agrees (Alongside files) (document.mapRefsM (rewriteRef root (bring root depth) none baseDir))
      (document.mapRefsM (rewriteRef root (bring root depth) none baseDir))
      { resolver := r } { resolver := Resolver.fresh files } :=
  agrees_mapRefsM (agrees_rewriteRef (agrees_bring depth)) _ _
    ⟨h, Resolver.consistent_fresh files, rfl⟩

/-- What was loaded before does not count for the depth that a walk allows for. -/
theorem depthLimit_eq (root : Root) {r : Resolver} (h : Consistent files r) :
    depthLimit root r = depthLimit root (Resolver.fresh files) := by
  rw [depthLimit, depthLimit, r.links_eq, h.same]
  rfl

/-- What a merge makes of a walk over its document. -/
def made (file : Option Path) (rewritten : Except Fault Json) (w : Walk) : Except Fault Merged := do
  return {
    document := ← addDefinitions (← rewritten) w.inlined
    path := file
    inlined := w.inlined }

theorem run_document (isObject : document.isObject = true) {r : Resolver} {limit : Nat}
    (limited : depthLimit (Root.of document file) r = limit) {rewritten : Except Fault Json}
    (walk : (document.mapRefsM (rewriteRef (Root.of document file)
      (bring (Root.of document file) limit) none baseDir)).run.run { resolver := r } =
        (rewritten, w)) :
    (Merge.document document file baseDir).run.run r = (made file rewritten w, w.resolver) := by
  subst limited
  rw [Merge.document]
  simp only [isObject, Bool.not_true, Bool.false_eq_true, ↓reduceIte]
  rw [run_get_bind]
  simp only [walk]
  cases rewritten with
  | error fault => rfl
  | ok out =>
    change (set w.resolver >>= fun _ => liftM (addDefinitions out w.inlined) >>= fun document =>
      pure { document, path := file, inlined := w.inlined } : ResolveM Merged).run.run r = _
    rw [made, ok_bind]
    cases addDefinitions out w.inlined with
    | error fault => rfl
    | ok document => rfl

/-- A merge comes to the same with whatever was loaded before. -/
theorem yields_document {r : Resolver} (h : Consistent files r) :
    Yields files r (Merge.document document file baseDir) (result files document file baseDir) := by
  by_cases isObject : document.isObject = true
  · let limit := depthLimit (Root.of document file) (Resolver.fresh files)
    let walk := document.mapRefsM
      (rewriteRef (Root.of document file) (bring (Root.of document file) limit) none baseDir)
    have walks : Agrees (Alongside files) walk walk { resolver := r }
      { resolver := Resolver.fresh files } := agrees_walk limit h
    rcases run : walk.run.run { resolver := r } with ⟨rewritten, w⟩
    rcases run' : walk.run.run { resolver := Resolver.fresh files } with ⟨rewritten', w'⟩
    rw [Agrees, run, run'] at walks
    obtain ⟨rfl, along⟩ := walks
    obtain ⟨r', _, rfl⟩ := along.exists_resolver
    refine ⟨w.resolver, ?_, along.consistent⟩
    rw [result, run_document isObject (depthLimit_eq _ h) run, run_document isObject rfl run']
    rfl
  · have refused : document.isObject = false := by simpa using isObject
    rw [result, Merge.document]
    simp only [refused, Bool.not_false, ↓reduceIte]
    exact Yields.throw h

/-- What the merge of a file comes to, with the given files. -/
def fileResult (files : FileTree) (path : Path) : Except Fault Merged :=
  match files.canonicalize path with
  | .error fault => .error (.io path fault)
  | .ok p => do result files (← files.load p) (some p) (p.parent?.getD Path.here)

theorem yields_file {r : Resolver} (h : Consistent files r) (path : Path) :
    Yields files r (Merge.file path) (fileResult files path) := by
  rw [Merge.file, fileResult]
  apply Yields.get_bind
  simp only [h.same]
  cases files.canonicalize path with
  | error fault => exact Yields.throw h
  | ok p => exact Yields.bind (Yields.lift h) fun document r _ h => yields_document h

end Merge

theorem mergeFile_eq_reported (files : FileTree) (input : Path) :
    mergeFile files input = reported .merge (Merge.fileResult files input) := by
  obtain ⟨r, run, _⟩ := Merge.yields_file (Resolver.consistent_fresh files) input
  rw [mergeFile, run]

end ApiGraph
