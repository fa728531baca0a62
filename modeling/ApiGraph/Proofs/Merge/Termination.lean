import ApiGraph.Proofs.Merge.Shared
import ApiGraph.Proofs.Merge.Unbounded

/-! Every merge comes to an end, whatever cycles the references form. The strings in the documents
are finitely many, and so are the targets that they lead to. With every target that is entered there
is one less without a name, so the depth that the merge allows for is never used up
(`exists_rewrites`), and the merge ends as it would without a limit (`merge_terminates`). -/

namespace ApiGraph

namespace Merge

open Resolver (Origin Consistent Keeps Reads)

variable {files : FileTree} {root : Root} {origin : Origin} {raw : String} {l : Ledger}

/-! The walk that the merge makes. -/

theorem pathsOf_reads (reads : List Path) (log : List Event) :
    pathsOf (reads.map .reads ++ log) = reads ++ pathsOf log := by
  rw [pathsOf, List.filterMap_append, List.filterMap_map]
  exact congrArg (· ++ pathsOf log) List.filterMap_some

theorem pathsOf_enters (t : Resolved) (log : List Event) :
    pathsOf (.enters t :: log) = pathsOf log := rfl

theorem pathsOf_append (log log' : List Event) :
    pathsOf (log ++ log') = pathsOf log ++ pathsOf log' := List.filterMap_append

/-- From a walk the act comes to the result and to what is done by then, and leaves a resolver that
keeps what is read by then. -/
def Ends (files : FileTree) (w : Walk) {α : Type} (act : WalkM α)
    (result : Except Fault (α × Ledger)) (read : List Path) : Prop :=
  ∃ w', act.run.run w = (result.map Prod.fst, w') ∧ Keeps files w'.resolver read ∧
    ∀ out, result = .ok out → w' = out.2.walk w'.resolver

/-- The act comes to its end from every resolver that keeps what was read. -/
def Walks (files : FileTree) (l : Ledger) (read : List Path) {α : Type} (act : WalkM α)
    (result : Except Fault (α × Ledger)) (read' : List Path) : Prop :=
  ∀ r, Keeps files r read → Ends files (l.walk r) act result read'

namespace Walks

variable {α β : Type} {l' : Ledger} {read read' read'' : List Path} {act : WalkM α}
  {next : α → WalkM β}

theorem pure (a : α) : Walks files l read (Pure.pure a) (.ok (a, l)) read :=
  fun r keeps => ⟨l.walk r, rfl, keeps, by rintro _ ⟨⟩; rfl⟩

theorem throw (fault : Fault) : Walks files l read (throw fault : WalkM α) (.error fault) read :=
  fun r keeps => ⟨l.walk r, rfl, keeps, by simp⟩

theorem bind {a : α} {result : Except Fault (β × Ledger)}
    (h : Walks files l read act (.ok (a, l')) read')
    (later : Walks files l' read' (next a) result read'') :
    Walks files l read (act >>= next) result read'' := by
  intro r keeps
  obtain ⟨w, run, keeps, same⟩ := h r keeps
  obtain ⟨w', rest, kept⟩ := later w.resolver keeps
  refine ⟨w', ?_, kept⟩
  rw [run_run_bind, run]
  rw [← same _ rfl] at rest
  exact rest

theorem bind_error {fault : Fault} (h : Walks files l read act (.error fault) read') :
    Walks files l read (act >>= next) (.error fault) read' := by
  intro r keeps
  obtain ⟨w, run, kept, _⟩ := h r keeps
  refine ⟨w, ?_, kept, by simp⟩
  rw [run_run_bind, run]
  rfl

/-- What is made of the result of an act does not count. -/
theorem map {result : Except Fault (α × Ledger)} (h : Walks files l read act result read')
    (f : α → β) :
    Walks files l read (f <$> act) (result.map fun out => (f out.1, out.2)) read' := by
  cases result with
  | ok out =>
    rw [map_eq_pure_bind]
    exact h.bind (pure (f out.1))
  | error fault =>
    rw [map_eq_pure_bind]
    exact h.bind_error

theorem cons {f : α → WalkM β} {a : α} {rest : List α} {b : β}
    {result : Except Fault (List β × Ledger)} (h : Walks files l read (f a) (.ok (b, l')) read')
    (later : Walks files l' read' (rest.mapM f) result read'') :
    Walks files l read ((a :: rest).mapM f) (result.map fun out => (b :: out.1, out.2)) read'' := by
  rw [List.mapM_cons]
  have whole := later.map (b :: ·)
  rw [map_eq_pure_bind] at whole
  exact h.bind whole

theorem cons_error {f : α → WalkM β} {a : α} {rest : List α} {fault : Fault}
    (h : Walks files l read (f a) (.error fault) read') :
    Walks files l read ((a :: rest).mapM f) (.error fault) read' := by
  rw [List.mapM_cons]
  exact h.bind_error

theorem modify_bind {change : Walk → Walk} {next : PUnit → WalkM α}
    {result : Except Fault (α × Ledger)} (changes : ∀ r, change (l.walk r) = l'.walk r)
    (h : Walks files l' read (next ⟨⟩) result read') :
    Walks files l read (modify change >>= next) result read' := by
  intro r keeps
  obtain ⟨w, run, kept⟩ := h r keeps
  refine ⟨w, ?_, kept⟩
  rw [← run, ← changes r]
  rfl

end Walks

/-- The resolver of a walk finds what it finds alone. -/
theorem walks_withResolver {α β : Type} {act : ResolveM α} {found : Except Fault α}
    {next : α → WalkM β} {result : Except Fault (β × Ledger)} {read read' read'' : List Path}
    (reads : Reads files read act found read')
    (later : Walks files l read' ((liftM found : WalkM α) >>= next) result read'') :
    Walks files l read (withResolver act >>= next) result read'' := by
  intro r keeps
  obtain ⟨r', run, keeps⟩ := reads r keeps
  obtain ⟨w, rest, kept⟩ := later r' keeps
  refine ⟨w, ?_, kept⟩
  have same : (l.walk r).resolver = r := rfl
  rw [withResolver, bind_assoc, run_get_bind, same, run, ← rest]
  cases found <;> rfl

/-- The walk finds what a string leads to, with the files that are read for it. -/
theorem walks_look {β : Type} {next : Option Resolved → WalkM β} {reads read read' : List Path}
    {found : Except Fault (Option Resolved)} {result : Except Fault (β × Ledger)}
    (leads : Leads files root origin raw reads found)
    (later : Walks files l (read ++ reads) ((liftM found : WalkM (Option Resolved)) >>= next)
      result read') : Walks files l read (look root origin raw >>= next) result read' := by
  rw [look, bind_assoc]
  cases leads with
  | unread isBad =>
    rw [isBad]
    rw [List.append_nil] at later
    exact later
  | @stays ref isRef stays =>
    have isLocal := (Reference.isLocal_iff_isLocalText isRef).mpr stays.2
    rw [isRef]
    rw [List.append_nil] at later
    apply Walks.bind (Walks.pure ref)
    simp only [isLocal, stays.1]
    exact later
  | @moves ref reads result isRef moves follows =>
    rw [isRef]
    apply Walks.bind (Walks.pure ref)
    split
    · rename_i isLocal file
      exact absurd ⟨file, (Reference.isLocal_iff_isLocalText isRef).mp isLocal⟩ moves
    · rw [map_eq_pure_bind, bind_assoc]
      apply walks_withResolver ((Resolver.reads_of_follows follows).2 read)
      cases result with
      | error fault => exact later
      | ok t => exact later

/-- The walk finds out what a string leads to and does what is to be done about it. -/
theorem walks_rewriteRef {bring : Resolved → WalkM Json} {reads read read' : List Path}
    {found : Except Fault (Option Resolved)} {result : Except Fault (String × Ledger)}
    (leads : Leads files root origin raw reads found)
    (h : Walks files l (read ++ reads) (carryOut bring l (judge root raw l found)) result read') :
    Walks files l read (rewriteRef root bring origin.file origin.baseDir raw) result read' := by
  rw [rewriteRef_eq]
  apply walks_look leads
  cases found with
  | error fault => exact h
  | ok found => exact fun r keeps => h r keeps

/-- Every string leads to something, or to a fault. -/
theorem exists_leads (files : FileTree) (root : Root) (origin : Origin) (raw : String) :
    ∃ reads found, Leads files root origin raw reads found := by
  cases isRef : Reference.ofText raw with
  | error fault => exact ⟨_, _, .unread isRef⟩
  | ok ref =>
    by_cases stays : Stays origin raw
    · exact ⟨_, _, .stays isRef stays⟩
    · obtain ⟨reads, follows, _⟩ := Resolver.reads_resolve files (root.scope origin.baseDir)
        ((origin.file.map ref.within).getD ref)
      exact ⟨_, _, .moves isRef stays follows⟩

theorem meaning_of_leads {reads : List Path} {t : Resolved}
    (h : Leads files root origin raw reads (.ok (some t))) :
    meaning files root origin raw = .ok t := by
  generalize same : Except.ok (some t) = found at h
  cases h with
  | unread isBad => cases same
  | stays isRef stays => cases same
  | @moves ref _ result isRef moves follows =>
    cases result with
    | error fault => cases same
    | ok s =>
      cases same
      rw [meaning, isRef, ok_bind]
      exact (Resolver.reads_of_follows follows).1

/-- What is done at a string where no target is entered. -/
theorem walks_of_fails {bring : Resolved → WalkM Json} {reads : List Path}
    {found : Except Fault (Option Resolved)} {fault : Fault}
    (leads : Leads files root origin raw reads found)
    (verdict : judge root raw l found = .fails fault) (read : List Path) :
    Walks files l read (rewriteRef root bring origin.file origin.baseDir raw) (.error fault)
      (read ++ reads) := by
  apply walks_rewriteRef leads
  rw [verdict]
  exact Walks.throw fault

theorem walks_of_writes {bring : Resolved → WalkM Json} {reads : List Path}
    {found : Except Fault (Option Resolved)} {form : String} {l' : Ledger}
    (leads : Leads files root origin raw reads found)
    (verdict : judge root raw l found = .writes form l') (read : List Path) :
    Walks files l read (rewriteRef root bring origin.file origin.baseDir raw) (.ok (form, l'))
      (read ++ reads) := by
  apply walks_rewriteRef leads
  rw [verdict]
  exact Walks.modify_bind (fun _ => rfl) (Walks.pure form)

/-- What is done at a string whose target is entered. -/
theorem walks_of_enters {bring : Resolved → WalkM Json} {reads read read' : List Path}
    {found : Except Fault (Option Resolved)} {t : Resolved} {inside : Except Fault (Json × Ledger)}
    (leads : Leads files root origin raw reads found)
    (verdict : judge root raw l found = .enters t)
    (brings : Walks files (l.reserve t) (read ++ reads) (bring t) inside read') :
    Walks files l read (rewriteRef root bring origin.file origin.baseDir raw)
      (inside.map fun out => (definitionRef t.name, out.2.finish t out.1)) read' := by
  apply walks_rewriteRef leads
  rw [verdict]
  apply Walks.modify_bind (fun _ => rfl)
  cases inside with
  | error fault => exact Walks.bind_error brings
  | ok out =>
    apply Walks.bind brings
    exact Walks.modify_bind (fun _ => rfl) (Walks.pure _)

/-- A target that is entered is gone over string by string. -/
theorem walks_bring {depth : Nat} {t : Resolved} {read read' : List Path}
    {result : Except Fault (List String × Ledger)}
    (h : Walks files l read
      (t.node.refs.mapM (rewriteRef root (bring root depth) t.file t.baseDir)) result read') :
    Walks files l read (bring root (depth + 1) t)
      (result.map fun out => (t.node.withRefs out.1, out.2)) read' := by
  rw [bring, mapRefsM_eq]
  exact h.map t.node.withRefs

/-! The measure. -/

/-- The keys of all targets that strings lead to, wherever they stand. -/
def targetKeys (files : FileTree) (root : Root) (baseDir : Path) : List String :=
  (strings files root).filterMap fun place =>
    (meaningAt files root baseDir place).toOption.map (·.canonical)

/-- The keys of targets that have no names yet. -/
def unnamed (keys : List String) (l : Ledger) : List String :=
  keys.filter fun key => key ∉ Table.keys l.assigned

theorem length_unnamed_le {keys : List String} {l' : Ledger}
    (grows : Table.keys l.assigned ⊆ Table.keys l'.assigned) :
    (unnamed keys l').length ≤ (unnamed keys l).length := by
  apply (List.monotone_filter_right keys _).length_le
  intro key
  simpa using fun absent held => absent (grows held)

/-- A target that is entered gets a name. -/
theorem length_unnamed_reserve {keys : List String} {t : Resolved} (isKey : t.canonical ∈ keys)
    (new : t.canonical ∉ Table.keys l.assigned) :
    (unnamed keys (l.reserve t)).length < (unnamed keys l).length := by
  have fewer : unnamed keys (l.reserve t) = (unnamed keys l).filter (· ≠ t.canonical) := by
    rw [unnamed, unnamed, List.filter_filter]
    congr 1
    funext key
    simp only [Ledger.mem_keys_reserve, not_or, Bool.decide_and]
  rw [fewer]
  apply List.length_filter_lt_length_iff_exists.mpr
  exact ⟨t.canonical, List.mem_filter.mpr ⟨isKey, by simpa using new⟩, by simp⟩

variable {baseDir : Path}

/-- The strings that stand at one place. -/
structure Placed (files : FileTree) (root : Root) (baseDir : Path) (origin : Origin)
    (raws : List String) : Prop where
  place : origin = originOf baseDir origin.file
  strings : ∀ raw ∈ raws, (origin.file, raw) ∈ strings files root

theorem placed_document (files : FileTree) (root : Root) (baseDir : Path) :
    Placed files root baseDir ⟨none, baseDir⟩ root.document.refs where
  place := rfl
  strings raw met := by
    rw [Merge.strings, List.mem_append]
    exact Or.inl (List.mem_map.mpr ⟨raw, (Json.mem_allRefs _).mpr (Or.inl met), rfl⟩)

/-- The strings of a target stand in its file. -/
theorem Placed.target {t : Resolved} (leads : meaning files root origin raw = .ok t)
    (away : t.isInScope = false) : Placed files root baseDir t.origin t.node.refs := by
  obtain ⟨p, document, same, canonical, loaded, within⟩ := origin_of_away leads away
  have file : t.origin.file = some p := by
    rw [same]
    rfl
  refine ⟨by rw [file]; exact same, fun raw met => ?_⟩
  rw [file]
  apply stringsOf_subset canonical loaded
  exact List.mem_map_of_mem (within ((Json.mem_allRefs _).mpr (Or.inl met)))

theorem Placed.mem_targetKeys {t : Resolved} (h : Placed files root baseDir origin raws)
    (met : raw ∈ raws) (leads : meaning files root origin raw = .ok t) :
    t.canonical ∈ targetKeys files root baseDir := by
  refine List.mem_filterMap.mpr ⟨_, h.strings raw met, ?_⟩
  have same : meaningAt files root baseDir (origin.file, raw) = meaning files root origin raw := by
    rw [meaningAt, ← h.place]
  rw [same, leads]
  rfl

/-- The walk comes to the end to which the strings are rewritten without a limit, if its targets may
nest as deep as there are targets without a name. -/
theorem exists_rewrites (depth : Nat) {origin : Origin} {raws : List String} {l : Ledger}
    (placed : Placed files root baseDir origin raws)
    (deep : (unnamed (targetKeys files root baseDir) l).length ≤ depth) :
    ∃ log result, Rewrites files root origin raws l log result ∧ ∀ read,
      Walks files l read (raws.mapM (rewriteRef root (bring root depth) origin.file origin.baseDir))
        result (read ++ pathsOf log) := by
  -- The outer induction is on the depth, for the strings of a target; the inner one goes over the
  -- strings at one place.
  induction depth using Nat.strong_induction_on generalizing origin raws l with
  | _ depth ihDepth =>
  induction raws generalizing l with
  | nil => exact ⟨[], _, .done, fun read => by simpa [pathsOf] using Walks.pure _⟩
  | cons raw rest ih =>
    have later : Placed files root baseDir origin rest :=
      ⟨placed.place, fun raw met => placed.strings raw (List.mem_cons_of_mem _ met)⟩
    obtain ⟨reads, found, leads⟩ := exists_leads files root origin raw
    cases verdict : judge root raw l found with
    | fails fault =>
      refine ⟨_, _, .fails leads verdict, fun read => ?_⟩
      rw [← List.append_nil (List.map _ _), pathsOf_reads, pathsOf, List.filterMap_nil,
        List.append_nil]
      exact (walks_of_fails leads verdict read).cons_error
    | writes form l' =>
      obtain ⟨log, result, rewrites, walks⟩ :=
        ih later ((length_unnamed_le (grows_of_writes verdict)).trans deep)
      refine ⟨_, _, .writes leads verdict rewrites, fun read => ?_⟩
      rw [pathsOf_reads, ← List.append_assoc]
      exact (walks_of_writes leads verdict read).cons (walks _)
    | enters t =>
      obtain ⟨rfl, away, new⟩ := new_of_enters verdict
      have meant := meaning_of_leads leads
      have fewer := length_unnamed_reserve (placed.mem_targetKeys (by simp) meant) new
      obtain ⟨depth, rfl⟩ : ∃ d, depth = d + 1 := ⟨depth - 1, by omega⟩
      obtain ⟨log, inside, rewrites, walks⟩ :=
        ihDepth depth (by simp) (Placed.target meant away) (l := l.reserve t) (by omega)
      have brings := fun read => walks_of_enters leads verdict
        (walks_bring (walks (read ++ reads)))
      cases inside with
      | error fault =>
        refine ⟨_, _, .sinks leads verdict rewrites, fun read => ?_⟩
        rw [pathsOf_reads, pathsOf_enters, ← List.append_assoc]
        exact (brings read).cons_error
      | ok out =>
        obtain ⟨forms, l'⟩ := out
        have grown : Table.keys l.assigned ⊆ Table.keys l'.assigned := fun key held =>
          rewrites.enters.grows _ rfl (Ledger.mem_keys_reserve.mpr (Or.inr held))
        obtain ⟨log', result, rewrites', walks'⟩ :=
          ih later (l := l'.finish t (t.node.withRefs forms)) ((length_unnamed_le grown).trans deep)
        refine ⟨_, _, .brings leads verdict rewrites rewrites', fun read => ?_⟩
        rw [pathsOf_reads, pathsOf_enters, pathsOf_append, ← List.append_assoc, ← List.append_assoc]
        exact (brings read).cons (walks' _)

variable {document : Json} {file : Option Path}

/-- The merge comes to the end to which a document is merged without a limit. -/
theorem exists_merges (files : FileTree) (document : Json) (file : Option Path) (baseDir : Path) :
    ∃ log result, Merges files document file baseDir log result ∧ ∀ read,
      Reads files read (Merge.document document file baseDir) result (read ++ pathsOf log) := by
  by_cases shape : document.isObject = true
  · have keys : (targetKeys files (Root.of document file) baseDir).length ≤
        depthLimit (Root.of document file) (Resolver.fresh files) := by
      have few := List.length_filterMap_le (fun place => (meaningAt files (Root.of document file)
        baseDir place).toOption.map (·.canonical)) (strings files (Root.of document file))
      have strings := @length_strings_lt files (Root.of document file)
      rw [targetKeys]
      omega
    have deep := (List.length_filter_le (fun key => key ∉ Table.keys ({} : Ledger).assigned)
      (targetKeys files (Root.of document file) baseDir)).trans keys
    have placed : Placed files (Root.of document file) baseDir ⟨none, baseDir⟩ document.refs :=
      placed_document files (Root.of document file) baseDir
    obtain ⟨log, result, rewrites, walks⟩ := exists_rewrites _ placed deep
    refine ⟨log, _, .walks shape rewrites, fun read r keeps => ?_⟩
    obtain ⟨w, run, keeps', same⟩ := (walks read).map document.withRefs r keeps
    rw [← mapRefsM_eq] at run
    refine ⟨w.resolver, ?_, keeps'⟩
    rw [run_document shape (depthLimit_eq _ keeps.consistent) run]
    cases result with
    | error fault => rfl
    | ok out =>
      rw [same _ rfl]
      rfl
  · have refused : document.isObject = false := by simpa using shape
    refine ⟨[], _, .refused refused, fun read => ?_⟩
    rw [Merge.document]
    simp only [refused, Bool.not_false, ↓reduceIte]
    rw [pathsOf, List.filterMap_nil, List.append_nil]
    exact Reads.throw _

/-- **Merging terminates.** Whatever cycles the references form, there is an end to merging a
document without any limit, and only one; the merge comes to just this end, and no target is entered
twice on the way. -/
theorem merge_terminates {r : Resolver} (consistent : Consistent files r) :
    ∃ log, Merges files document file baseDir log
        ((Merge.document document file baseDir).run.run r).1 ∧
      ((entered log).map (·.canonical)).Nodup ∧
      ∀ log' result, Merges files document file baseDir log' result →
        log' = log ∧ result = ((Merge.document document file baseDir).run.run r).1 := by
  obtain ⟨log, found, merges, reads⟩ := exists_merges files document file baseDir
  have same : ((Merge.document document file baseDir).run.run r).1 = found := by
    obtain ⟨_, run, _⟩ := @yields_document _ document file baseDir _ consistent
    obtain ⟨_, first, _⟩ := reads [] _ (Resolver.keeps_fresh files)
    rw [run, result, first]
  rw [same]
  exact ⟨log, merges, merges.entered_once, fun _ _ other => merges.unique other⟩

/-- Two definitions that refer to each other across files, and one of them to itself. -/
def walletFiles : FileTree where
  entries := [(["wallet.yaml"], .file
      "Wallet:\n  owner:\n    $ref: owner.yaml#/Owner\n  self:\n    $ref: '#/Wallet'\n"),
    (["owner.yaml"], .file "Owner:\n  wallet:\n    $ref: wallet.yaml#/Wallet\n")]

/-- A document that refers to one of them. -/
def walletHolder : Json := .object [("wallet", .object [("$ref", .string "wallet.yaml#/Wallet")])]

theorem walletHolder_merges : (result walletFiles walletHolder none ⟨"/"⟩).toOption.map (fun m =>
      (m.document.refs, Table.keys m.inlined)) =
    some (["#/components/schemas/Wallet", "#/components/schemas/Owner",
      "#/components/schemas/Wallet", "#/components/schemas/Wallet"], ["Wallet", "Owner"]) := by
  decide +kernel

/-- The wallet and its owner are brought in, each of them once. -/
theorem walletHolder_terminates : ∃ m log, result walletFiles walletHolder none ⟨"/"⟩ = .ok m ∧
    Table.keys m.inlined = ["Wallet", "Owner"] ∧
    Merges walletFiles walletHolder none ⟨"/"⟩ log (.ok m) ∧
    ((entered log).map (·.canonical)).Nodup := by
  obtain ⟨m, merged, shape⟩ := exists_ok_of_map walletHolder_merges
  obtain ⟨log, merges, once, _⟩ := @merge_terminates _ ⟨"/"⟩ walletHolder none _
    (Resolver.consistent_fresh walletFiles)
  exact ⟨m, log, merged, (Prod.mk.inj shape).2, merged ▸ merges, once⟩

end Merge

end ApiGraph
