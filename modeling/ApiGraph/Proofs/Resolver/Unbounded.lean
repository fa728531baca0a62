import ApiGraph.Proofs.Merge.Depth
import Mathlib.Data.List.Dedup

/-! Following a reference without a limit, and what is read on the way. `Follows` goes from target
to target for as long as there is a next one, and lists the files that are read; it depends on the
files alone, and there is one way to go (`Follows.unique`). The targets are known by finitely many
keys, so every reference comes to an end: the resolver never runs into its limit
(`reads_of_follows`). What a resolver keeps are the documents of the files that were read
(`reads_resolve`), each once, however the reading ended. -/

namespace ApiGraph.Resolver

variable {files : FileTree} {scope : Scope} {chain : List String} {origin : Origin}
  {ref : Reference} {read : List Path}

/-! One way to follow a reference. -/

/-- The file that is read for one step: the target file, if it is not in scope and can be read. -/
def readBy (files : FileTree) (scope : Scope) (origin : Origin) (ref : Reference) : Option Path :=
  match targetFile files origin ref with
  | .ok (some p) =>
    if inScope scope (some p) then none else (files.load p).toOption.map fun _ => p
  | _ => none

theorem readBy_here {place : Option Path} (found : targetFile files origin ref = .ok place)
    (here : inScope scope place = true) : readBy files scope origin ref = none := by
  rw [readBy, found]
  cases place with
  | none => rfl
  | some p => exact if_pos here

theorem readBy_away {p : Path} (found : targetFile files origin ref = .ok (some p))
    (away : inScope scope (some p) = false) :
    readBy files scope origin ref = (files.load p).toOption.map fun _ => p := by
  rw [readBy, found]
  exact if_neg (by simp [away])

/-- Following a reference from target to target, with the files that are read. The chain holds the
targets that were passed. -/
inductive Follows (files : FileTree) (scope : Scope) :
    List String → Origin → Reference → List Path → Except Fault Resolved → Prop
  | lost {chain : List String} {origin : Origin} {ref : Reference} {fault : Fault}
    (missed : target files scope origin ref = .error fault) :
    Follows files scope chain origin ref (readBy files scope origin ref).toList (.error fault)
  | again {chain : List String} {origin : Origin} {ref : Reference} {t : Resolved}
    (found : target files scope origin ref = .ok t) (passed : t.canonical ∈ chain) :
    Follows files scope chain origin ref (readBy files scope origin ref).toList
      (.error (.referenceCycle (chain ++ [t.canonical])))
  | ended {chain : List String} {origin : Origin} {ref : Reference} {t : Resolved}
    (found : target files scope origin ref = .ok t) (new : t.canonical ∉ chain)
    (ended : aliasTarget? t.node = none) :
    Follows files scope chain origin ref (readBy files scope origin ref).toList (.ok t)
  | unread {chain : List String} {origin : Origin} {ref : Reference} {t : Resolved}
    {raw : String} {fault : Fault}
    (found : target files scope origin ref = .ok t) (new : t.canonical ∉ chain)
    (leads : aliasTarget? t.node = some raw) (isBad : Reference.ofText raw = .error fault) :
    Follows files scope chain origin ref (readBy files scope origin ref).toList (.error fault)
  | onward {chain : List String} {origin : Origin} {ref next : Reference} {t : Resolved}
    {raw : String} {reads : List Path} {result : Except Fault Resolved}
    (found : target files scope origin ref = .ok t) (new : t.canonical ∉ chain)
    (leads : aliasTarget? t.node = some raw) (isNext : Reference.ofText raw = .ok next)
    (later : Follows files scope (chain ++ [t.canonical]) ⟨t.file <|> scope.file, t.baseDir⟩ next
      reads result) :
    Follows files scope chain origin ref ((readBy files scope origin ref).toList ++ reads) result

/-- A reference is followed in one way. -/
theorem Follows.unique {reads reads' : List Path} {result result' : Except Fault Resolved}
    (h : Follows files scope chain origin ref reads result)
    (h' : Follows files scope chain origin ref reads' result') :
    reads' = reads ∧ result' = result := by
  -- The target, the chain and the next reference tell the constructors apart.
  induction h generalizing reads' result' with
  | lost missed => cases h' <;> simp_all
  | again found passed => cases h' <;> simp_all
  | ended found new ended => cases h' <;> simp_all
  | unread found new leads isBad => cases h' <;> simp_all
  | onward found new leads isNext later ih =>
    cases h' with
    | lost missed => simp_all
    | again found' passed => simp_all
    | ended found' _ ended => simp_all
    | unread found' _ leads' isBad => simp_all
    | onward found' _ leads' isNext' later' =>
      rw [found] at found'
      cases found'
      rw [leads] at leads'
      cases leads'
      rw [isNext] at isNext'
      cases isNext'
      obtain ⟨rfl, rfl⟩ := ih later'
      exact ⟨rfl, rfl⟩

/-! The keys of targets. -/

/-- Where references stand that are met in a file, or in the document in scope. -/
def startOf (scope : Scope) : Option Path → Origin
  | none => ⟨scope.file, scope.baseDir⟩
  | some p => ⟨some p, p.parent?.getD Path.here⟩

/-- The reference strings of the document in scope and of all files. -/
def stringsFrom (files : FileTree) (scope : Scope) : List (Option Path × String) :=
  Merge.strings files (Merge.Root.of scope.document scope.file)

/-- The key of what a string leads to in one step that stands at the given place. -/
def keyAt? (files : FileTree) (scope : Scope) (place : Option Path × String) : Option String :=
  (Reference.ofText place.2 >>= target files scope (startOf scope place.1)).toOption.map
    (·.canonical)

/-- The keys of all targets that are reached in one step from a string in a document. -/
def stepKeys (files : FileTree) (scope : Scope) : List String :=
  (stringsFrom files scope).filterMap (keyAt? files scope)

/-- A resolver allows for more steps than there are keys. -/
theorem length_stepKeys_lt :
    (stepKeys files scope).length + 1 < scope.links + files.linkCount + 2 := by
  have few := List.length_filterMap_le (keyAt? files scope) (stringsFrom files scope)
  have strings := @Merge.length_strings_lt files (Merge.Root.of scope.document scope.file)
  have limit : Merge.depthLimit (Merge.Root.of scope.document scope.file) (fresh files) =
      scope.links + files.linkCount + 1 := by
    rw [scope.links_eq]
    rfl
  rw [stepKeys]
  rw [limit] at strings
  rw [stringsFrom] at few ⊢
  omega

/-- What comes after a target is given by a string in its document. -/
theorem mem_stepKeys {s t : Resolved} (landed : Landed files scope s) {raw : String}
    {next : Reference} (leads : aliasTarget? s.node = some raw)
    (isNext : Reference.ofText raw = .ok next)
    (found : target files scope ⟨s.file <|> scope.file, s.baseDir⟩ next = .ok t) :
    t.canonical ∈ stepKeys files scope := by
  have met : raw ∈ s.node.allRefs :=
    (Json.mem_allRefs _).mpr (Or.inl (Json.mem_refs_of_aliasTarget? leads))
  have inDocument : ∃ place, (place, raw) ∈ stringsFrom files scope ∧
      startOf scope place = ⟨s.file <|> scope.file, s.baseDir⟩ := by
    cases file : s.file with
    | none =>
      obtain ⟨stands, baseDir⟩ := landed.here file
      refine ⟨none, ?_, by rw [baseDir]; rfl⟩
      rw [stringsFrom, Merge.strings, List.mem_append]
      exact Or.inl (List.mem_map_of_mem (Json.allRefs_lookup stands met))
    | some p =>
      obtain ⟨canonical, _, parent, document, loaded, stands⟩ := landed.there p file
      refine ⟨some p, ?_, by rw [startOf, parent]; rfl⟩
      apply Merge.stringsOf_subset canonical loaded
      exact List.mem_map_of_mem (Json.allRefs_lookup stands met)
  obtain ⟨place, isString, start⟩ := inDocument
  refine List.mem_filterMap.mpr ⟨(place, raw), isString, ?_⟩
  rw [keyAt?, isNext, ok_bind, start, found]
  rfl

/-- The passed targets, and the one to come, are among finitely many keys, and there are more steps
than keys that were not passed. -/
structure Room (files : FileTree) (scope : Scope) (keys chain : List String) (origin : Origin)
    (ref : Reference) (steps : Nat) : Prop where
  unique : chain.Nodup
  passed : chain ⊆ keys
  toCome : ∀ t, target files scope origin ref = .ok t → t.canonical ∈ keys
  all : stepKeys files scope ⊆ keys
  enough : keys.length < chain.length + steps

namespace Room

variable {keys : List String} {steps : Nat}

theorem start : ∃ keys, Room files scope keys [] origin ref (scope.links + files.linkCount + 2) := by
  refine ⟨((target files scope origin ref).toOption.map (·.canonical)).toList ++
    stepKeys files scope, List.nodup_nil, by simp, ?_, by simp, ?_⟩
  · intro t found
    rw [found]
    exact List.mem_append_left _ (by simp [Except.toOption])
  · have keys := @length_stepKeys_lt files scope
    have first : ((target files scope origin ref).toOption.map
        (·.canonical)).toList.length ≤ 1 := by
      cases (target files scope origin ref).toOption <;> simp
    rw [List.length_append, List.length_nil]
    omega

theorem pos (h : Room files scope keys chain origin ref steps) : 0 < steps := by
  have few := (List.subperm_of_subset h.unique h.passed).length_le
  have enough := h.enough
  omega

/-- A step takes up one key. -/
theorem step (h : Room files scope keys chain origin ref (steps + 1)) (known : Known scope origin)
    {t : Resolved} (found : target files scope origin ref = .ok t) (new : t.canonical ∉ chain)
    {raw : String} {next : Reference} (leads : aliasTarget? t.node = some raw)
    (isNext : Reference.ofText raw = .ok next) :
    Room files scope keys (chain ++ [t.canonical]) ⟨t.file <|> scope.file, t.baseDir⟩ next
      steps where
  unique := by
    rw [List.nodup_append]
    refine ⟨h.unique, by simp, ?_⟩
    rintro key passed other single rfl
    exact new (List.mem_singleton.mp single ▸ passed)
  passed := List.append_subset.mpr ⟨h.passed, by simpa using h.toCome t found⟩
  toCome s found' := h.all (mem_stepKeys (landed_target known found).2 leads isNext found')
  all := h.all
  enough := by
    have enough := h.enough
    rw [List.length_append, List.length_singleton]
    omega

end Room

/-! What a resolver keeps. -/

/-- A resolver keeps the documents of the files that were read, each once. -/
structure Keeps (files : FileTree) (r : Resolver) (read : List Path) : Prop where
  consistent : Consistent files r
  unique : (Table.keys r.cache).Nodup
  mem_keys : ∀ key, key ∈ Table.keys r.cache ↔ ∃ p ∈ read, p.text = key

theorem keeps_fresh (files : FileTree) : Keeps files (fresh files) [] where
  consistent := consistent_fresh files
  unique := List.nodup_nil
  mem_keys := by simp [fresh, Table.keys]

/-- As many documents are kept as different files were read. -/
theorem Keeps.cachedFiles_eq {r : Resolver} (h : Keeps files r read) :
    r.cachedFiles = read.dedup.length := by
  have injective : Function.Injective Path.text := fun p q same => by
    cases p
    cases q
    simpa using same
  have keys : (Table.keys r.cache).Perm (read.dedup.map Path.text) := by
    rw [List.perm_ext_iff_of_nodup h.unique ((List.nodup_map_iff injective).mpr read.nodup_dedup)]
    simp [h.mem_keys]
  have length := keys.length_eq
  rwa [Table.keys, List.length_map, List.length_map] at length

/-- From every resolver that keeps what was read, the act comes to the result and leaves a resolver
that keeps what is read by then. -/
def Reads (files : FileTree) (read : List Path) {α : Type} (act : ResolveM α)
    (result : Except Fault α) (read' : List Path) : Prop :=
  ∀ r, Keeps files r read → ∃ r', act.run.run r = (result, r') ∧ Keeps files r' read'

namespace Reads

variable {α β : Type} {read' read'' : List Path} {act : ResolveM α} {next : α → ResolveM β}

theorem get_bind {next : Resolver → ResolveM α} {result : Except Fault α}
    (h : ∀ r : Resolver, r.files = files → Reads files read (next r) result read') :
    Reads files read (get >>= next) result read' :=
  fun r keeps => h r keeps.consistent.same r keeps

theorem lift (result : Except Fault α) : Reads files read (liftM result) result read :=
  fun r keeps => by cases result <;> exact ⟨r, rfl, keeps⟩

theorem pure (a : α) : Reads files read (Pure.pure a) (.ok a) read :=
  fun r keeps => ⟨r, rfl, keeps⟩

theorem throw (fault : Fault) : Reads files read (throw fault : ResolveM α) (.error fault) read :=
  fun r keeps => ⟨r, rfl, keeps⟩

theorem bind {a : α} {result : Except Fault β} (h : Reads files read act (.ok a) read')
    (later : Reads files read' (next a) result read'') :
    Reads files read (act >>= next) result read'' := by
  intro r keeps
  obtain ⟨r', run, keeps⟩ := h r keeps
  obtain ⟨r'', rest, keeps⟩ := later r' keeps
  refine ⟨r'', ?_, keeps⟩
  rw [run_run_bind, run]
  exact rest

theorem bind_error {fault : Fault} (h : Reads files read act (.error fault) read') :
    Reads files read (act >>= next) (.error fault) read' := by
  intro r keeps
  obtain ⟨r', run, keeps⟩ := h r keeps
  refine ⟨r', ?_, keeps⟩
  rw [run_run_bind, run]

/-- What is made of the result of an act does not count. -/
theorem map {result : Except Fault α} (h : Reads files read act result read') (f : α → β) :
    Reads files read (f <$> act) (result.map f) read' := by
  rw [map_eq_pure_bind]
  cases result with
  | ok a => exact h.bind (pure (f a))
  | error fault => exact h.bind_error

end Reads

/-- A document that can be loaded is kept from then on. -/
theorem reads_load {p : Path} (canonical : FileTree.IsCanonical p) :
    Reads files read (load p) (files.load p)
      (read ++ ((files.load p).toOption.map fun _ => p).toList) := by
  intro r keeps
  obtain ⟨r', run, consistent⟩ := yields_load keeps.consistent canonical
  refine ⟨r', run, ?_⟩
  rw [load, run_get_bind, canonical.normal] at run
  cases kept : r.cache.get? p.text with
  | some document =>
    -- The document is kept already, so the file is one of those that were read.
    simp only [kept] at run
    have same := (Prod.mk.inj run).2
    subst same
    have held : p.text ∈ Table.keys r.cache := Table.mem_keys_iff.mpr ⟨document, kept⟩
    obtain ⟨q, isRead, text⟩ := (keeps.mem_keys p.text).mp held
    refine ⟨consistent, keeps.unique, fun key => ?_⟩
    rw [keeps.mem_keys]
    simp only [List.mem_append, Option.mem_toList, Option.map_eq_some_iff]
    constructor
    · rintro ⟨q, member, text⟩
      exact ⟨q, Or.inl member, text⟩
    · rintro ⟨q', member | ⟨_, _, rfl⟩, text'⟩
      · exact ⟨q', member, text'⟩
      · exact ⟨q, isRead, text.trans text'⟩
  | none =>
    have absent := Table.get?_eq_none_iff.mp kept
    simp only [kept, keeps.consistent.same] at run
    cases loaded : files.load p with
    | error fault =>
      rw [loaded] at run
      have same := (Prod.mk.inj run).2
      subst same
      simpa [Except.toOption] using keeps
    | ok document =>
      rw [loaded] at run
      have same := (Prod.mk.inj run).2
      subst same
      refine ⟨consistent, Table.keys_insert_nodup keeps.unique _ _, fun key => ?_⟩
      have keys : key ∈ Table.keys (Table.insert r.cache p.text document) ↔
          key ∈ Table.keys r.cache ∨ key = p.text := by
        rw [Table.keys_insert_of_not_mem absent, List.mem_append, List.mem_singleton]
      exact keys.trans (by simp [keeps.mem_keys, Except.toOption, or_and_right, exists_or, eq_comm])

theorem reads_hop (known : Known scope origin) :
    Reads files read (hop scope origin ref) (target files scope origin ref)
      (read ++ (readBy files scope origin ref).toList) := by
  rw [hop]
  apply Reads.get_bind
  rintro r rfl
  rw [target]
  cases found : targetFile r.files origin ref with
  | error fault =>
    rw [error_bind, readBy, found, Option.toList_none, List.append_nil]
    exact Reads.bind_error (Reads.lift _)
  | ok place =>
    rw [ok_bind]
    apply Reads.bind (Reads.lift _)
    by_cases here : inScope scope place = true
    · rw [readBy_here found here, Option.toList_none, List.append_nil]
      simp only [here, ↓reduceIte, ok_bind, arrive]
      apply Reads.bind (Reads.pure _)
      cases ref.fragment.lookup scope.document with
      | none => exact Reads.throw _
      | some node => exact Reads.pure _
    · have away : inScope scope place = false := by simpa using here
      obtain ⟨p, rfl⟩ : ∃ p, place = some p := by
        cases place with
        | none => exact absurd rfl here
        | some p => exact ⟨p, rfl⟩
      rw [readBy_away found away]
      simp only [away, Bool.false_eq_true, ↓reduceIte, Option.getD_some]
      have loads := @reads_load r.files read p (targetFile_canonical known found rfl away)
      cases loaded : r.files.load p with
      | error fault =>
        rw [loaded] at loads
        exact Reads.bind_error loads
      | ok document =>
        rw [loaded] at loads
        apply Reads.bind loads
        simp only [ok_bind, arrive, away, Bool.false_eq_true, ↓reduceIte]
        cases ref.fragment.lookup document with
        | none => exact Reads.throw _
        | some node => exact Reads.pure _

/-- A reference is followed to its end, for as long as there is room. -/
theorem reads_follow {keys : List String} {steps : Nat} (known : Known scope origin)
    (room : Room files scope keys chain origin ref steps) : ∃ reads,
    Follows files scope chain origin ref reads (lastOf files scope chain origin ref steps) ∧
    ∀ read, Reads files read (follow scope chain origin ref steps)
      (lastOf files scope chain origin ref steps) (read ++ reads) := by
  induction steps generalizing chain origin ref with
  | zero => exact absurd room.pos (by simp)
  | succ steps ih =>
    have first := fun read => @reads_hop files scope origin ref read known
    rw [lastOf, follow]
    cases found : target files scope origin ref with
    | error fault =>
      refine ⟨_, .lost found, fun read => Reads.bind_error (found ▸ first read)⟩
    | ok t =>
      simp only [found] at first
      by_cases passed : t.canonical ∈ chain
      · simp only [ok_bind, passed, ↓reduceIte]
        refine ⟨_, .again found passed, fun read => Reads.bind (first read) ?_⟩
        simp only [passed, ↓reduceIte]
        exact Reads.throw _
      · simp only [ok_bind, passed, ↓reduceIte]
        cases leads : aliasTarget? t.node with
        | none =>
          refine ⟨_, .ended found passed leads, fun read => Reads.bind (first read) ?_⟩
          simp only [passed, ↓reduceIte, leads]
          exact Reads.pure t
        | some raw =>
          cases isNext : Reference.ofText raw with
          | error fault =>
            simp only [isNext, error_bind]
            refine ⟨_, .unread found passed leads isNext, fun read => Reads.bind (first read) ?_⟩
            simp only [passed, ↓reduceIte, leads, isNext]
            exact Reads.bind_error (Reads.lift _)
          | ok next =>
            obtain ⟨reads, follows, later⟩ := ih (landed_target known found).2.known
              (room.step known found passed leads isNext)
            simp only [isNext, ok_bind]
            refine ⟨_, .onward found passed leads isNext follows, fun read =>
              Reads.bind (first read) ?_⟩
            simp only [passed, ↓reduceIte, leads, isNext]
            apply Reads.bind (Reads.lift _)
            rw [← List.append_assoc]
            exact later _

/-- Every reference comes to an end, and the resolver finds it and keeps what it has read. -/
theorem reads_resolve (files : FileTree) (scope : Scope) (ref : Reference) : ∃ reads,
    Follows files scope [] ⟨scope.file, scope.baseDir⟩ ref reads (outcome files scope ref) ∧
    ∀ read, Reads files read (resolve scope ref) (outcome files scope ref) (read ++ reads) := by
  obtain ⟨keys, room⟩ := @Room.start files scope ⟨scope.file, scope.baseDir⟩ ref
  obtain ⟨reads, follows, run⟩ := reads_follow (known_scope scope scope.baseDir) room
  refine ⟨reads, follows, fun read => ?_⟩
  rw [resolve]
  apply Reads.get_bind
  rintro r rfl
  rw [stepLimit, r.links_eq]
  exact run read

/-- What the resolver finds and reads is what following without a limit finds and reads. -/
theorem reads_of_follows {reads : List Path} {result : Except Fault Resolved}
    (follows : Follows files scope [] ⟨scope.file, scope.baseDir⟩ ref reads result) :
    outcome files scope ref = result ∧
      ∀ read, Reads files read (resolve scope ref) result (read ++ reads) := by
  obtain ⟨_, follows', run⟩ := reads_resolve files scope ref
  obtain ⟨rfl, rfl⟩ := follows.unique follows'
  exact ⟨rfl, run⟩

end ApiGraph.Resolver
