import ApiGraph.Proofs.Merge.Termination

/-! What is kept between calls does not show. A resolver, and a merger with its resolver, can be
asked to load, to resolve and to merge in any order, with or without success. `Performs` says what
a call comes to by itself, from the files alone, and which files are read for it. Every
call comes to that, whatever was done before, and the resolver keeps one document for each
file that was read so far (`cache_invisible`). -/

namespace ApiGraph

open Resolver (Follows Keeps Reads fresh)
open Merge (Merges pathsOf)

/-- What a resolver can be asked to do, or a merger that has it. -/
inductive Call where
  | load (path : Path)
  | resolve (scope : Scope) (ref : Reference)
  | resolveText (scope : Scope) (raw : String)
  | merge (document : Json) (file : Option Path) (baseDir : Path)
  | mergeFile (path : Path)

inductive Answer where
  | document (document : Json)
  | target (target : Resolved)
  | merged (merged : Merged)

namespace Call

def act : Call → ResolveM Answer
  | load path => Answer.document <$> Resolver.load path
  | resolve scope ref => Answer.target <$> Resolver.resolve scope ref
  | resolveText scope raw => Answer.target <$> Resolver.resolveText scope raw
  | merge document file baseDir => Answer.merged <$> Merge.document document file baseDir
  | mergeFile path => Answer.merged <$> Merge.file path

/-- The answer of a resolver that has loaded nothing yet. -/
def alone (files : FileTree) (call : Call) : Except Fault Answer :=
  (call.act.run.run (fresh files)).1

/-- A file is loaded by its canonical path. -/
def Proper : Call → Prop
  | load path => FileTree.IsCanonical path
  | _ => True

end Call

/-- The resolver after some calls, whether they have failed or not. -/
def Resolver.after (files : FileTree) (calls : List Call) : Resolver :=
  calls.foldl (fun r call => (call.act.run.run r).2) (fresh files)

/-- What a call comes to by itself, with the files that are read for it: by a load, or by a step
that leaves the document in scope. The document that is merged is not one of them. -/
inductive Performs (files : FileTree) : Call → List Path → Except Fault Answer → Prop
  | loads {path : Path} {document : Json} (loaded : files.load path = .ok document) :
    Performs files (.load path) [path] (.ok (.document document))
  | unloaded {path : Path} {fault : Fault} (failed : files.load path = .error fault) :
    Performs files (.load path) [] (.error fault)
  | resolves {scope : Scope} {ref : Reference} {reads : List Path} {result : Except Fault Resolved}
    (follows : Follows files scope [] ⟨scope.file, scope.baseDir⟩ ref reads result) :
    Performs files (.resolve scope ref) reads (result.map .target)
  | unread {scope : Scope} {raw : String} {fault : Fault}
    (isBad : Reference.ofText raw = .error fault) :
    Performs files (.resolveText scope raw) [] (.error fault)
  | resolvesText {scope : Scope} {raw : String} {ref : Reference} {reads : List Path}
    {result : Except Fault Resolved} (isRef : Reference.ofText raw = .ok ref)
    (follows : Follows files scope [] ⟨scope.file, scope.baseDir⟩ ref reads result) :
    Performs files (.resolveText scope raw) reads (result.map .target)
  | merges {document : Json} {file : Option Path} {baseDir : Path} {log : List Merge.Event}
    {result : Except Fault Merged} (merges : Merges files document file baseDir log result) :
    Performs files (.merge document file baseDir) (pathsOf log) (result.map .merged)
  | misplaced {path : Path} {fault : IoFault} (missed : files.canonicalize path = .error fault) :
    Performs files (.mergeFile path) [] (.error (.io path fault))
  | unmerged {path p : Path} {fault : Fault} (found : files.canonicalize path = .ok p)
    (failed : files.load p = .error fault) : Performs files (.mergeFile path) [] (.error fault)
  | mergesFile {path p : Path} {document : Json} {log : List Merge.Event}
    {result : Except Fault Merged} (found : files.canonicalize path = .ok p)
    (loaded : files.load p = .ok document)
    (merges : Merges files document (some p) (p.parent?.getD Path.here) log result) :
    Performs files (.mergeFile path) (pathsOf log) (result.map .merged)

variable {files : FileTree} {call : Call} {calls : List Call}

theorem Performs.unique {reads reads' : List Path} {answer answer' : Except Fault Answer}
    (h : Performs files call reads answer) (h' : Performs files call reads' answer') :
    reads' = reads ∧ answer' = answer := by
  cases h with
  | loads loaded | unloaded failed => cases h' <;> simp_all
  | resolves follows =>
    cases h' with
    | resolves follows' =>
      obtain ⟨rfl, rfl⟩ := follows.unique follows'
      exact ⟨rfl, rfl⟩
  | unread isBad => cases h' <;> simp_all
  | resolvesText isRef follows =>
    cases h' with
    | unread isBad => simp_all
    | resolvesText isRef' follows' =>
      rw [isRef] at isRef'
      cases isRef'
      obtain ⟨rfl, rfl⟩ := follows.unique follows'
      exact ⟨rfl, rfl⟩
  | merges merges =>
    cases h' with
    | merges merges' =>
      obtain ⟨rfl, rfl⟩ := merges.unique merges'
      exact ⟨rfl, rfl⟩
  | misplaced missed => cases h' <;> simp_all
  | unmerged found failed => cases h' <;> simp_all
  | mergesFile found loaded merges =>
    cases h' with
    | misplaced missed => simp_all
    | unmerged found' failed =>
      rw [found] at found'
      cases found'
      simp_all
    | mergesFile found' loaded' merges' =>
      rw [found] at found'
      cases found'
      rw [loaded] at loaded'
      cases loaded'
      obtain ⟨rfl, rfl⟩ := merges.unique merges'
      exact ⟨rfl, rfl⟩

/-- A file is merged that can be found and loaded. -/
theorem reads_mergeFile (files : FileTree) (path : Path) : ∃ reads answer,
    Performs files (.mergeFile path) reads answer ∧
      ∀ read, Reads files read (Call.mergeFile path).act answer (read ++ reads) := by
  cases found : files.canonicalize path with
  | error fault =>
    have fails : ∀ read, Reads files read (Merge.file path) (.error (.io path fault)) read := by
      intro read
      rw [Merge.file]
      apply Reads.get_bind
      rintro r rfl
      simp only [found]
      exact Reads.throw _
    refine ⟨_, _, .misplaced found, fun read => ?_⟩
    rw [List.append_nil]
    exact (fails read).map Answer.merged
  | ok p =>
    cases loaded : files.load p with
    | error fault =>
      have fails : ∀ read, Reads files read (Merge.file path) (.error fault) read := by
        intro read
        rw [Merge.file]
        apply Reads.get_bind
        rintro r rfl
        simp only [found, loaded]
        exact Reads.bind_error (Reads.lift _)
      refine ⟨_, _, .unmerged found loaded, fun read => ?_⟩
      rw [List.append_nil]
      exact (fails read).map Answer.merged
    | ok document =>
      obtain ⟨log, result, merges, reads⟩ :=
        Merge.exists_merges files document (some p) (p.parent?.getD Path.here)
      refine ⟨_, _, .mergesFile found loaded merges, fun read => Reads.map ?_ Answer.merged⟩
      rw [Merge.file]
      apply Reads.get_bind
      rintro r rfl
      simp only [found, loaded]
      exact (Reads.lift _).bind (reads read)

/-- Every call is answered, from every resolver that keeps what was read. -/
theorem reads_call (files : FileTree) {call : Call} (proper : call.Proper) : ∃ reads answer,
    Performs files call reads answer ∧
      ∀ read, Reads files read call.act answer (read ++ reads) := by
  cases call with
  | load path =>
    have loads := fun read => (@Resolver.reads_load files read path proper).map Answer.document
    cases loaded : files.load path with
    | ok document =>
      rw [loaded] at loads
      exact ⟨_, _, .loads loaded, loads⟩
    | error fault =>
      rw [loaded] at loads
      exact ⟨_, _, .unloaded loaded, loads⟩
  | resolve scope ref =>
    obtain ⟨reads, follows, resolves⟩ := Resolver.reads_resolve files scope ref
    exact ⟨_, _, .resolves follows, fun read => (resolves read).map Answer.target⟩
  | resolveText scope raw =>
    cases isRef : Reference.ofText raw with
    | error fault =>
      refine ⟨_, _, .unread isRef, fun read => ?_⟩
      rw [Call.act, Resolver.resolveText, isRef, List.append_nil]
      exact (Reads.bind_error (Reads.lift _)).map Answer.target
    | ok ref =>
      obtain ⟨reads, follows, resolves⟩ := Resolver.reads_resolve files scope ref
      refine ⟨_, _, .resolvesText isRef follows, fun read => ?_⟩
      rw [Call.act, Resolver.resolveText, isRef]
      exact ((Reads.lift _).bind (resolves read)).map Answer.target
  | merge document file baseDir =>
    obtain ⟨log, result, merges, reads⟩ := Merge.exists_merges files document file baseDir
    exact ⟨_, _, .merges merges, fun read => (reads read).map Answer.merged⟩
  | mergeFile path => exact reads_mergeFile files path

/-- The answer of a call that is made first. -/
theorem Performs.alone_eq {reads : List Path} {answer : Except Fault Answer} (proper : call.Proper)
    (h : Performs files call reads answer) : call.alone files = answer := by
  obtain ⟨reads', answer', performs, acts⟩ := reads_call files proper
  obtain ⟨rfl, rfl⟩ := h.unique performs
  obtain ⟨_, run, _⟩ := acts [] _ (Resolver.keeps_fresh files)
  rw [Call.alone, run]

/-- After some calls, the resolver keeps what was read for them. -/
theorem exists_keeps_after (files : FileTree) {calls : List Call}
    (proper : ∀ call ∈ calls, call.Proper) : ∃ logs : List (List Path),
    List.Forall₂ (fun call reads => Performs files call reads (call.alone files)) calls logs ∧
      Keeps files (Resolver.after files calls) logs.flatten := by
  have onward : ∀ r read, Keeps files r read → ∃ logs : List (List Path),
      List.Forall₂ (fun call reads => Performs files call reads (call.alone files)) calls logs ∧
      Keeps files (calls.foldl (fun r call => (call.act.run.run r).2) r)
        (read ++ logs.flatten) := by
    induction calls with
    | nil => exact fun r read keeps => ⟨[], .nil, by simpa using keeps⟩
    | cons call rest ih =>
      intro r read keeps
      have isProper := proper call (by simp)
      obtain ⟨reads, answer, performs, acts⟩ := reads_call files isProper
      obtain ⟨r', run, keeps'⟩ := acts read r keeps
      obtain ⟨logs, all, keeps''⟩ := ih (fun call member => proper call (by simp [member])) r'
        (read ++ reads) keeps'
      rw [← performs.alone_eq isProper] at performs
      refine ⟨reads :: logs, .cons performs all, ?_⟩
      rw [List.foldl_cons, run, List.flatten_cons, ← List.append_assoc]
      exact keeps''
  obtain ⟨logs, all, keeps⟩ := onward _ [] (Resolver.keeps_fresh files)
  exact ⟨logs, all, keeps⟩

/-- **The cache is invisible.** After any calls, a call is answered as it is by a resolver that has
loaded nothing yet. There are as many documents kept as different files were read for the calls. -/
theorem cache_invisible (files : FileTree) {calls : List Call} {call : Call}
    (proper : ∀ call ∈ calls, call.Proper) (next : call.Proper) :
    (call.act.run.run (Resolver.after files calls)).1 = call.alone files ∧
    ∃ logs : List (List Path),
      List.Forall₂ (fun call reads => Performs files call reads (call.alone files)) calls logs ∧
      (∀ logs', List.Forall₂ (fun call reads => ∃ answer, Performs files call reads answer) calls
        logs' → logs' = logs) ∧
      (Resolver.after files calls).cachedFiles = logs.flatten.dedup.length := by
  obtain ⟨logs, all, keeps⟩ := exists_keeps_after files proper
  constructor
  · obtain ⟨reads, answer, performs, acts⟩ := reads_call files next
    obtain ⟨_, run, _⟩ := acts _ _ keeps
    rw [run, performs.alone_eq next]
  · refine ⟨logs, all, fun logs' all' => ?_, keeps.cachedFiles_eq⟩
    clear keeps proper
    induction all generalizing logs' with
    | nil =>
      cases all'
      rfl
    | cons performs _ ih =>
      cases all' with
      | cons other rest =>
        obtain ⟨answer, performs'⟩ := other
        rw [(performs.unique performs').1, ih _ rest]

/-- A file is loaded, a document is merged twice that leads there, and a reference to nothing is
followed in it. -/
def walletCalls : List Call :=
  [.load ⟨"/owner.yaml"⟩, .merge Merge.walletHolder none ⟨"/"⟩,
    .resolveText ((Merge.Root.of Merge.walletHolder none).scope ⟨"/"⟩) "owner.yaml#/Guest",
    .merge Merge.walletHolder none ⟨"/"⟩]

/-- The two files are kept, and what is loaded next is what was loaded first. -/
theorem walletCalls_cache : (Resolver.after Merge.walletFiles walletCalls).cachedFiles = 2 ∧
    ((Call.load ⟨"/owner.yaml"⟩).act.run.run (Resolver.after Merge.walletFiles walletCalls)).1 =
      (Call.load ⟨"/owner.yaml"⟩).alone Merge.walletFiles := by
  have named : Location.Named ["owner.yaml"] := by
    intro name member
    obtain rfl := List.mem_singleton.mp member
    decide
  have isPath : (Call.load ⟨"/owner.yaml"⟩).Proper := ⟨_, named, by decide⟩
  have proper : ∀ call ∈ walletCalls, call.Proper := by
    simp only [walletCalls, List.forall_mem_cons]
    exact ⟨isPath, trivial, trivial, trivial, by simp⟩
  exact ⟨by decide +kernel, (cache_invisible Merge.walletFiles proper isPath).1⟩

end ApiGraph
