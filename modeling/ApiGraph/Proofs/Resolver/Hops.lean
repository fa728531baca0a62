import ApiGraph.Proofs.Merge.Meaning
import ApiGraph.Proofs.Resolver.Unbounded

/-! The way from a reference, hop by hop. `hopAt` is the resolver's own step done again and again,
without a chain and without a limit. Without hashes in paths a key stands for one target, so a key
that comes again means that the way goes round for ever (`endless_of_again`): the resolver finds the
first target that is no reference, and tells of a cycle exactly if there is none
(`resolve_along_hops`). -/

namespace ApiGraph.Resolver

/-- One hop: where its reference stands, the reference, and what it leads to. -/
structure Hop where
  origin : Origin
  ref : Reference
  target : Resolved

/-- The hop of the given number from a reference, if no target before it was the last. -/
def hopAt (scope : Scope) (origin : Origin) (ref : Reference) : Nat → ResolveM (Option Hop)
  | 0 => do return some ⟨origin, ref, ← hop scope origin ref⟩
  | n + 1 => do
    let target ← hop scope origin ref
    match aliasTarget? target.node with
    | none => return none
    | some raw =>
      let next ← Reference.ofText raw
      hopAt scope ⟨target.file <|> scope.file, target.baseDir⟩ next n

/-- The hop of the given number, on files that stay as they are. -/
def hopOn (files : FileTree) (scope : Scope) (origin : Origin) (ref : Reference) :
    Nat → Except Fault (Option Hop)
  | 0 => do return some ⟨origin, ref, ← target files scope origin ref⟩
  | n + 1 => do
    let t ← target files scope origin ref
    match aliasTarget? t.node with
    | none => return none
    | some raw =>
      let next ← Reference.ofText raw
      hopOn files scope ⟨t.file <|> scope.file, t.baseDir⟩ next n

/-- The hop of the given number behind a target. -/
def hopBehind (files : FileTree) (scope : Scope) (t : Resolved) (n : Nat) :
    Except Fault (Option Hop) :=
  match aliasTarget? t.node with
  | none => .ok none
  | some raw => do
    let next ← Reference.ofText raw
    hopOn files scope ⟨t.file <|> scope.file, t.baseDir⟩ next n

variable {files : FileTree} {scope : Scope} {chain : List String} {origin : Origin}
  {ref : Reference} {r : Resolver} {m n : Nat} {h : Hop}

theorem hopOn_zero {t : Resolved} (found : target files scope origin ref = .ok t) :
    hopOn files scope origin ref 0 = .ok (some ⟨origin, ref, t⟩) := by
  rw [hopOn, found]
  rfl

theorem hopOn_succ {t : Resolved} (found : target files scope origin ref = .ok t) (n : Nat) :
    hopOn files scope origin ref (n + 1) = hopBehind files scope t n := by
  rw [hopOn, found]
  rfl

theorem hopOn_of_missed {fault : Fault} (missed : target files scope origin ref = .error fault)
    (n : Nat) : hopOn files scope origin ref n = .error fault := by
  cases n <;> rw [hopOn, missed] <;> rfl

theorem hopBehind_of_leads {t : Resolved} {raw : String} {next : Reference}
    (leads : aliasTarget? t.node = some raw) (isNext : Reference.ofText raw = .ok next) (n : Nat) :
    hopBehind files scope t n =
      hopOn files scope ⟨t.file <|> scope.file, t.baseDir⟩ next n := by
  simp only [hopBehind, leads, isNext]
  rfl

theorem yields_hopAt (consistent : Consistent files r) (known : Known scope origin) (n : Nat) :
    Yields files r (hopAt scope origin ref n) (hopOn files scope origin ref n) := by
  induction n generalizing origin ref r with
  | zero =>
    rw [hopAt, hopOn]
    exact Yields.bind (yields_hop consistent known) fun _ _ _ kept => Yields.pure kept
  | succ n ih =>
    rw [hopAt, hopOn]
    apply Yields.bind (yields_hop consistent known)
    intro t r found kept
    cases aliasTarget? t.node with
    | none => exact Yields.pure kept
    | some raw =>
      apply Yields.bind (Yields.lift kept)
      exact fun next r _ kept => ih kept (landed_target known found).2.known

/-! Going on along the hops. -/

/-- Behind a hop the way depends on its target alone. -/
theorem hopOn_add (there : hopOn files scope origin ref m = .ok (some h)) (n : Nat) :
    hopOn files scope origin ref (m + 1 + n) = hopBehind files scope h.target n := by
  induction m generalizing origin ref with
  | zero =>
    obtain ⟨t, found, same⟩ := bind_eq_ok.mp there
    cases same
    rw [Nat.add_comm, ← Nat.add_assoc, Nat.add_zero]
    exact hopOn_succ found n
  | succ m ih =>
    obtain ⟨t, found, there⟩ := bind_eq_ok.mp there
    cases leads : aliasTarget? t.node with
    | none =>
      simp only [leads] at there
      cases there
    | some raw =>
      simp only [leads] at there
      obtain ⟨next, isNext, there⟩ := bind_eq_ok.mp there
      rw [show m + 1 + 1 + n = (m + 1 + n) + 1 by omega, hopOn_succ found,
        hopBehind_of_leads leads isNext]
      exact ih there

/-- Where there is no hop, there is none later on, for the same reason. -/
theorem hopOn_of_le (nowhere : ∀ h, hopOn files scope origin ref m ≠ .ok (some h)) (le : m ≤ n) :
    hopOn files scope origin ref n = hopOn files scope origin ref m := by
  induction m generalizing origin ref n with
  | zero =>
    cases found : target files scope origin ref with
    | error fault => rw [hopOn_of_missed found, hopOn_of_missed found]
    | ok t => exact absurd (hopOn_zero found) (nowhere _)
  | succ m ih =>
    obtain ⟨n, rfl⟩ : ∃ k, n = k + 1 := ⟨n - 1, by omega⟩
    cases found : target files scope origin ref with
    | error fault => rw [hopOn_of_missed found, hopOn_of_missed found]
    | ok t =>
      simp only [hopOn_succ found] at nowhere ⊢
      cases leads : aliasTarget? t.node with
      | none => simp only [hopBehind, leads]
      | some raw =>
        cases isNext : Reference.ofText raw with
        | error fault => simp only [hopBehind, leads, isNext, error_bind]
        | ok next =>
          simp only [hopBehind_of_leads leads isNext] at nowhere ⊢
          exact ih nowhere (by omega)

/-- A fault stays. -/
theorem hopOn_error_of_le {fault : Fault} (missed : hopOn files scope origin ref m = .error fault)
    (le : m ≤ n) : hopOn files scope origin ref n = .error fault := by
  have nowhere : ∀ h, hopOn files scope origin ref m ≠ .ok (some h) := by simp [missed]
  rw [hopOn_of_le nowhere le, missed]

/-- The first fault of a way is its only one. -/
theorem fault_unique {fault fault' : Fault} (missed : hopOn files scope origin ref m = .error fault)
    (missed' : hopOn files scope origin ref n = .error fault') : fault' = fault := by
  rcases Nat.le_total m n with le | le
  · have later := hopOn_error_of_le missed le
    rw [missed'] at later
    cases later
    rfl
  · have later := hopOn_error_of_le missed' le
    rw [missed] at later
    cases later
    rfl

/-- The way goes on behind a hop: its target is a reference. -/
def GoesOn (files : FileTree) (scope : Scope) (origin : Origin) (ref : Reference) (n : Nat) : Prop :=
  ∃ h raw, hopOn files scope origin ref n = .ok (some h) ∧ aliasTarget? h.target.node = some raw

theorem GoesOn.not_ended (goesOn : GoesOn files scope origin ref n)
    (there : hopOn files scope origin ref n = .ok (some h)) : aliasTarget? h.target.node ≠ none := by
  obtain ⟨_, raw, goes, leads⟩ := goesOn
  rw [there] at goes
  cases goes
  simp [leads]

/-- Before a hop the way went on. -/
theorem goesOn_of_lt (there : hopOn files scope origin ref n = .ok (some h)) (lt : m < n) :
    GoesOn files scope origin ref m := by
  by_cases before : ∃ h, hopOn files scope origin ref m = .ok (some h)
  · obtain ⟨earlier, before⟩ := before
    obtain ⟨k, rfl⟩ := Nat.exists_eq_add_of_lt lt
    rw [show m + k + 1 = m + 1 + k by omega, hopOn_add before] at there
    cases leads : aliasTarget? earlier.target.node with
    | none =>
      simp only [hopBehind, leads] at there
      cases there
    | some raw => exact ⟨earlier, raw, before, leads⟩
  · rw [hopOn_of_le (by simpa using before) (by omega : m ≤ n)] at there
    exact absurd ⟨h, there⟩ before

/-- Where the way comes to a target that is no reference, it has not gone on, and is not broken
anywhere. -/
theorem hopOn_of_ended (there : hopOn files scope origin ref m = .ok (some h))
    (ended : aliasTarget? h.target.node = none) (n : Nat) :
    ∃ h?, hopOn files scope origin ref n = .ok h? := by
  rcases Nat.lt_trichotomy n m with lt | rfl | lt
  · obtain ⟨earlier, _, before, _⟩ := goesOn_of_lt there lt
    exact ⟨_, before⟩
  · exact ⟨_, there⟩
  · obtain ⟨k, rfl⟩ := Nat.exists_eq_add_of_lt lt
    refine ⟨none, ?_⟩
    rw [show m + k + 1 = m + 1 + k by omega, hopOn_add there]
    simp only [hopBehind, ended]

/-- The way comes to one target that is no reference. -/
theorem ended_unique {h' : Hop} (there : hopOn files scope origin ref m = .ok (some h))
    (ended : aliasTarget? h.target.node = none)
    (there' : hopOn files scope origin ref n = .ok (some h'))
    (ended' : aliasTarget? h'.target.node = none) : h' = h := by
  rcases Nat.lt_trichotomy n m with lt | rfl | lt
  · exact absurd ended' ((goesOn_of_lt there lt).not_ended there')
  · rw [there] at there'
    cases there'
    rfl
  · exact absurd ended ((goesOn_of_lt there' lt).not_ended there)

/-- Two hops to one target, and the way goes round: every later hop leads where an earlier one
leads. -/
theorem endless_of_same {h' : Hop} (first : hopOn files scope origin ref m = .ok (some h))
    (again : hopOn files scope origin ref n = .ok (some h')) (lt : m < n)
    (same : h'.target = h.target) (k : Nat) : GoesOn files scope origin ref k := by
  induction k using Nat.strong_induction_on with
  | _ k ih =>
    rcases Nat.lt_trichotomy k n with before | rfl | after
    · exact goesOn_of_lt again before
    · obtain ⟨_, raw, there, leads⟩ := goesOn_of_lt again lt
      rw [first] at there
      cases there
      exact ⟨h', raw, again, by rw [same, leads]⟩
    · obtain ⟨j, rfl⟩ := Nat.exists_eq_add_of_lt after
      obtain ⟨earlier, raw, there, leads⟩ := ih (m + 1 + j) (by omega)
      refine ⟨earlier, raw, ?_, leads⟩
      rw [show n + j + 1 = n + 1 + j by omega, hopOn_add again, same, ← hopOn_add first, there]

/-! How following comes to an end, in terms of the hops. -/

/-- A result of following a reference behind the given chain, with the hop that it comes from. -/
inductive EndsAt (files : FileTree) (scope : Scope) (chain : List String) (origin : Origin)
    (ref : Reference) : Except Fault Resolved → Prop
  | found {n : Nat} {h : Hop} (there : hopOn files scope origin ref n = .ok (some h))
    (ended : aliasTarget? h.target.node = none) :
    EndsAt files scope chain origin ref (.ok h.target)
  | broken {n : Nat} {fault : Fault} (missed : hopOn files scope origin ref n = .error fault) :
    EndsAt files scope chain origin ref (.error fault)
  | again {n : Nat} {h : Hop} {cycle : List String}
    (there : hopOn files scope origin ref n = .ok (some h))
    (passed : h.target.canonical ∈ chain ∨ ∃ m earlier, m < n ∧
      hopOn files scope origin ref m = .ok (some earlier) ∧
        earlier.target.canonical = h.target.canonical) :
    EndsAt files scope chain origin ref (.error (.referenceCycle cycle))

theorem endsAt_of_follows {reads : List Path} {result : Except Fault Resolved}
    (follows : Follows files scope chain origin ref reads result) :
    EndsAt files scope chain origin ref result := by
  induction follows with
  | lost missed => exact .broken (hopOn_of_missed missed 0)
  | again found passed => exact .again (hopOn_zero found) (Or.inl passed)
  | ended found _ ended => exact .found (hopOn_zero found) ended
  | @unread _ _ _ t raw fault found _ leads isBad =>
    refine .broken (n := 1) ?_
    rw [hopOn_succ found]
    simp only [hopBehind, leads, isBad, error_bind]
  | @onward _ _ _ next t _ _ _ found _ leads isNext _ ih =>
    -- The hops behind the first target are the hops of the rest, one number later.
    have later : ∀ n, hopOn files scope _ _ (n + 1) =
        hopOn files scope ⟨t.file <|> scope.file, t.baseDir⟩ next n :=
      fun n => (hopOn_succ found n).trans (hopBehind_of_leads leads isNext n)
    cases ih with
    | found there ended => exact .found ((later _).trans there) ended
    | broken missed => exact .broken ((later _).trans missed)
    | again there passed =>
      refine .again ((later _).trans there) ?_
      rcases passed with inChain | ⟨m, earlier, lt, before, same⟩
      · rcases List.mem_append.mp inChain with old | single
        · exact Or.inl old
        · exact Or.inr ⟨0, _, by omega, hopOn_zero found, (List.mem_singleton.mp single).symm⟩
      · exact Or.inr ⟨m + 1, earlier, by omega, (later m).trans before, same⟩

/-! Where the hops lead. -/

/-- If the document in scope comes from a file, then from a canonical path without a hash. -/
def Placed (scope : Scope) : Prop :=
  ∀ p, scope.file = some p → FileTree.IsCanonical p ∧ '#' ∉ p.text.toList

/-- What is known of the references on the way: the files in which they stand have canonical paths,
and none stands outside of all files unless the document in scope does. -/
structure OnWay (scope : Scope) (origin : Origin) (ref : Reference) : Prop where
  canonical : ∀ p, origin.file = some p → FileTree.IsCanonical p
  homed : origin.file = none → scope.file = none
  reads : ref.fragment.ReadsBack

/-- A hop of the way: its reference leads to its target. -/
structure Hopped (files : FileTree) (scope : Scope) (h : Hop) : Prop where
  onWay : OnWay scope h.origin h.ref
  leads : target files scope h.origin h.ref = .ok h.target

namespace OnWay

theorem start (placed : Placed scope) (reads : ref.fragment.ReadsBack) :
    OnWay scope ⟨scope.file, scope.baseDir⟩ ref :=
  ⟨fun p place => (placed p place).1, id, reads⟩

theorem known (onWay : OnWay scope origin ref) : Known scope origin :=
  fun p place _ => onWay.canonical p place

theorem next {t : Resolved} (placed : Placed scope) (onWay : OnWay scope origin ref)
    (found : target files scope origin ref = .ok t) {raw : String} {next : Reference}
    (isNext : Reference.ofText raw = .ok next) :
    OnWay scope ⟨t.file <|> scope.file, t.baseDir⟩ next where
  canonical p place := by
    cases file : t.file with
    | none =>
      rw [file] at place
      exact (placed p place).1
    | some q =>
      rw [file] at place
      cases place
      exact ((landed_target onWay.known found).2.there p file).1
  homed := by
    cases t.file with
    | none => exact id
    | some p => exact fun nowhere => nomatch nowhere
  reads := (Reference.fragment_written isNext).reads

/-- Every hop is on the way if the first one is. -/
theorem hopped (placed : Placed scope) (onWay : OnWay scope origin ref)
    (there : hopOn files scope origin ref n = .ok (some h)) : Hopped files scope h := by
  induction n generalizing origin ref with
  | zero =>
    obtain ⟨t, found, same⟩ := bind_eq_ok.mp there
    cases same
    exact ⟨onWay, found⟩
  | succ n ih =>
    obtain ⟨t, found, there⟩ := bind_eq_ok.mp there
    cases leads : aliasTarget? t.node with
    | none =>
      simp only [leads] at there
      cases there
    | some raw =>
      simp only [leads] at there
      obtain ⟨next, isNext, there⟩ := bind_eq_ok.mp there
      exact ih (onWay.next placed found isNext) there

/-- A reference leads to no file only if it is a local one outside of all files. -/
theorem targetFile_cases (onWay : OnWay scope origin ref) {place : Option Path}
    (found : targetFile files origin ref = .ok place) :
    (place = none → scope.file = none) ∧ ∀ p, place = some p → FileTree.IsCanonical p := by
  cases ref with
  | inFile fragment =>
    cases found
    exact ⟨onWay.homed, onWay.canonical⟩
  | external path fragment =>
    simp only [targetFile] at found
    split at found
    · rename_i canonicalized
      cases found
      refine ⟨by simp, fun p place => ?_⟩
      cases place
      exact FileTree.isCanonical_of_canonicalize canonicalized
    · cases found
    · cases found

end OnWay

theorem Hopped.landed (hopped : Hopped files scope h) :
    Landed files scope h.target ∧ h.target.fragment.ReadsBack := by
  obtain ⟨fragment, landed⟩ := landed_target hopped.onWay.known hopped.leads
  exact ⟨landed, fragment ▸ hopped.onWay.reads⟩

/-- A hop whose reference leads to the file of the document in scope ends in the document itself,
and any other hop in the document that stands in its target file. -/
def Arrives (files : FileTree) (scope : Scope) (h : Hop) : Prop :=
  h.target.fragment = h.ref.fragment ∧
  ∃ place, targetFile files h.origin h.ref = .ok place ∧
    if place = scope.file then
      h.target.file = none ∧ h.target.baseDir = scope.baseDir ∧
        h.ref.fragment.lookup scope.document = some h.target.node
    else ∃ p document, place = some p ∧ h.target.file = some p ∧
      p.parent? = some h.target.baseDir ∧ files.load p = .ok document ∧
        h.ref.fragment.lookup document = some h.target.node

theorem Hopped.arrives (placed : Placed scope) (hopped : Hopped files scope h) :
    Arrives files scope h := by
  obtain ⟨fragment, landed⟩ := landed_target hopped.onWay.known hopped.leads
  obtain ⟨place, found, file⟩ := file_of_target hopped.leads
  obtain ⟨homed, canonical⟩ := hopped.onWay.targetFile_cases found
  refine ⟨fragment, place, found, ?_⟩
  by_cases own : place = scope.file
  · rw [own, inScope_file, if_pos rfl] at file
    rw [if_pos own]
    obtain ⟨stands, baseDir⟩ := landed.here file
    exact ⟨file, baseDir, fragment ▸ stands⟩
  · rw [if_neg own]
    cases place with
    | none => exact absurd (homed rfl).symm own
    | some p =>
      have away : inScope scope (some p) = false := by
        cases root : scope.file with
        | none => rw [inScope, root]; rfl
        | some q =>
          rw [Bool.eq_false_iff, ne_eq, inScope_iff root (placed q root).1 (canonical p rfl)]
          rintro rfl
          exact own root.symm
      rw [away] at file
      obtain ⟨_, _, parent, document, loaded, stands⟩ := landed.there p file
      exact ⟨p, document, rfl, file, parent, loaded, fragment ▸ stands⟩

/-- The document in scope is never read from its file. -/
theorem not_mem_reads {reads : List Path} {result : Except Fault Resolved}
    (follows : Follows files scope chain origin ref reads result) :
    ∀ p ∈ reads, scope.file ≠ some p := by
  have step : ∀ origin ref, ∀ p ∈ (readBy files scope origin ref).toList, scope.file ≠ some p := by
    intro origin ref p isRead own
    rw [Option.mem_toList, readBy] at isRead
    split at isRead
    · split at isRead
      · cases isRead
      · rename_i away
        obtain ⟨_, _, rfl⟩ := Option.map_eq_some_iff.mp isRead
        exact away (own ▸ inScope_file scope)
    · cases isRead
  induction follows with
  | lost => exact step _ _
  | again => exact step _ _
  | ended => exact step _ _
  | unread => exact step _ _
  | onward _ _ _ _ _ ih =>
    intro p isRead
    rcases List.mem_append.mp isRead with here | later
    · exact step _ _ p here
    · exact ih p later

/-! Keys. -/

/-- Without hashes in paths, a key is cut into the path of the file that the target stands in, and
the fragment. -/
theorem cutFirst_canonical (plain : Merge.HashFree files) (placed : Placed scope) {t : Resolved}
    (landed : Landed files scope t) : Text.cutFirst '#' t.canonical.toList =
      some ((((t.file <|> scope.file).map Path.text).getD "").toList, t.fragment.text.toList) := by
  cases file : t.file with
  | some p => exact Merge.file_of_landed plain landed file
  | none =>
    have bare : '#' ∉ ((scope.file.map Path.text).getD "").toList := by
      cases root : scope.file with
      | none => simp
      | some p => exact (placed p root).2
    have key : t.canonical.toList =
        ((scope.file.map Path.text).getD "").toList ++ '#' :: t.fragment.text.toList := by
      rw [landed.keyed, file]
      simp
    rw [key]
    exact Text.cutFirst_append bare _

/-- A file outside of the document in scope does not have the path of that document. -/
theorem text_ne_of_landed {t : Resolved} (landed : Landed files scope t) {p : Path}
    (file : t.file = some p) : p.text ≠ (scope.file.map Path.text).getD "" := by
  intro text
  obtain ⟨canonical, away, _⟩ := landed.there p file
  cases root : scope.file with
  | none =>
    obtain ⟨location, _, rfl⟩ := canonical
    have filled := FileTree.toList_textOf location
    rw [text, root] at filled
    cases filled
  | some q =>
    rw [root] at text
    have path : p = q := by
      cases p
      cases q
      simpa using text
    rw [path, ← root, inScope_file] at away
    cases away

/-- In the document in scope a target is told by its fragment. -/
theorem eq_of_fragment {s t : Resolved} (hs : Landed files scope s) (ht : Landed files scope t)
    (sFile : s.file = none) (tFile : t.file = none) (fragment : s.fragment = t.fragment) :
    s = t := by
  obtain ⟨stands, baseDir⟩ := hs.here sFile
  obtain ⟨stands', baseDir'⟩ := ht.here tFile
  rw [fragment, stands'] at stands
  have node := Option.some.inj stands
  have name : s.name = t.name := by rw [hs.named, ht.named, sFile, tFile, fragment, node]
  have canonical : s.canonical = t.canonical := by rw [hs.keyed, ht.keyed, sFile, tFile, fragment]
  cases s
  cases t
  simp_all

/-- Without hashes in paths, targets with the same key are the same. -/
theorem eq_of_canonical (plain : Merge.HashFree files) (placed : Placed scope) {s t : Resolved}
    (hs : Landed files scope s ∧ s.fragment.ReadsBack)
    (ht : Landed files scope t ∧ t.fragment.ReadsBack) (same : s.canonical = t.canonical) :
    s = t := by
  have cut := cutFirst_canonical plain placed hs.1
  rw [same, cutFirst_canonical plain placed ht.1] at cut
  simp only [Option.some.injEq, Prod.mk.injEq, String.toList_inj] at cut
  obtain ⟨home, text⟩ := cut
  have fragment := hs.2.eq_of_text ht.2 text.symm
  cases sFile : s.file with
  | none =>
    cases tFile : t.file with
    | none => exact eq_of_fragment hs.1 ht.1 sFile tFile fragment
    | some p =>
      rw [sFile, tFile] at home
      exact absurd home (text_ne_of_landed ht.1 tFile)
  | some q =>
    cases tFile : t.file with
    | none =>
      rw [sFile, tFile] at home
      exact absurd home.symm (text_ne_of_landed hs.1 sFile)
    | some p =>
      exact Merge.eq_of_canonical plain hs.1 ht.1 hs.2 ht.2 (by simp [Resolved.isInScope, sFile])
        (by simp [Resolved.isInScope, tFile]) same

/-- A key that comes again means that the way goes on for ever. -/
theorem endless_of_again (plain : Merge.HashFree files) (placed : Placed scope)
    (onWay : OnWay scope origin ref) {h' : Hop}
    (first : hopOn files scope origin ref m = .ok (some h))
    (again : hopOn files scope origin ref n = .ok (some h')) (lt : m < n)
    (same : h.target.canonical = h'.target.canonical) (k : Nat) :
    GoesOn files scope origin ref k := by
  have once := eq_of_canonical plain placed (onWay.hopped placed first).landed
    (onWay.hopped placed again).landed same
  exact endless_of_same first again lt once.symm k

/-- What a result is according to the hops: the first target that is no reference, the fault of a
hop that cannot be made, or a cycle. -/
structure Tells (hops : Nat → Except Fault (Option Hop)) (result : Except Fault Resolved) : Prop where
  found : ∀ t, result = .ok t ↔
    ∃ n h, hops n = .ok (some h) ∧ h.target = t ∧ aliasTarget? t.node = none
  onward : ∀ n h, hops n = .ok (some h) → ∀ m < n,
    ∃ earlier raw, hops m = .ok (some earlier) ∧ aliasTarget? earlier.target.node = some raw
  broken : ∀ n fault, hops n = .error fault → result = .error fault
  cycle : (∀ n fault, hops n ≠ .error fault) →
    ((∃ cycle, result = .error (.referenceCycle cycle)) ↔
      ¬ ∃ n h, hops n = .ok (some h) ∧ aliasTarget? h.target.node = none)

theorem tells_of_ended (there : hopOn files scope origin ref n = .ok (some h))
    (ended : aliasTarget? h.target.node = none) :
    Tells (hopOn files scope origin ref) (.ok h.target) where
  found t := by
    constructor
    · rintro ⟨⟩
      exact ⟨n, h, there, rfl, ended⟩
    · rintro ⟨_, h', there', rfl, ended'⟩
      rw [ended_unique there ended there' ended']
  onward _ _ there _ lt := goesOn_of_lt there lt
  broken n' fault missed := by
    obtain ⟨_, unbroken⟩ := hopOn_of_ended there ended n'
    rw [unbroken] at missed
    cases missed
  cycle _ := iff_of_false (by simp) (not_not_intro ⟨n, h, there, ended⟩)

theorem tells_of_broken {fault : Fault} (missed : hopOn files scope origin ref n = .error fault) :
    Tells (hopOn files scope origin ref) (.error fault) where
  found t := by
    refine iff_of_false (by simp) ?_
    rintro ⟨_, _, there, rfl, ended⟩
    obtain ⟨_, unbroken⟩ := hopOn_of_ended there ended n
    rw [unbroken] at missed
    cases missed
  onward _ _ there _ lt := goesOn_of_lt there lt
  broken _ _ missed' := by rw [fault_unique missed missed']
  cycle unbroken := absurd missed (unbroken n fault)

theorem tells_of_endless (endless : ∀ k, GoesOn files scope origin ref k) (cycle : List String) :
    Tells (hopOn files scope origin ref) (.error (.referenceCycle cycle)) where
  found t := by
    refine iff_of_false (by simp) ?_
    rintro ⟨_, _, there, rfl, ended⟩
    exact (endless _).not_ended there ended
  onward _ _ there _ lt := goesOn_of_lt there lt
  broken n fault missed := by
    obtain ⟨_, _, goes, _⟩ := endless n
    rw [goes] at missed
    cases missed
  cycle _ := by
    refine iff_of_true ⟨cycle, rfl⟩ ?_
    rintro ⟨_, _, there, ended⟩
    exact (endless _).not_ended there ended

theorem tells_of_endsAt (plain : Merge.HashFree files) (placed : Placed scope)
    (onWay : OnWay scope origin ref) {result : Except Fault Resolved}
    (ends : EndsAt files scope [] origin ref result) :
    Tells (hopOn files scope origin ref) result := by
  cases ends with
  | found there ended => exact tells_of_ended there ended
  | broken missed => exact tells_of_broken missed
  | again there passed =>
    obtain ⟨_, _, lt, first, same⟩ := passed.resolve_left List.not_mem_nil
    exact tells_of_endless (endless_of_again plain placed onWay first there lt same) _

/-- Every reference that is read comes to an end without a limit, and what the resolver finds is
told by the hops. The document in scope stands in for its file throughout. -/
theorem resolve_along_hops (plain : Merge.HashFree files) (placed : Placed scope) {raw : String}
    (read : Reference.ofText raw = .ok ref) (consistent : Consistent files r) :
    ∃ (result : Except Fault Resolved) (hops : Nat → Except Fault (Option Hop)),
      Yields files r (resolve scope ref) result ∧
      (∀ n, Yields files r (hopAt scope ⟨scope.file, scope.baseDir⟩ ref n) (hops n)) ∧
      (∃ loads, Follows files scope [] ⟨scope.file, scope.baseDir⟩ ref loads result ∧
        ∀ p ∈ loads, scope.file ≠ some p) ∧
      Tells hops result ∧ ∀ n h, hops n = .ok (some h) → Arrives files scope h := by
  obtain ⟨loads, follows, _⟩ := reads_resolve files scope ref
  have onWay : OnWay scope ⟨scope.file, scope.baseDir⟩ ref :=
    .start placed (Reference.fragment_written read).reads
  exact ⟨outcome files scope ref, hopOn files scope ⟨scope.file, scope.baseDir⟩ ref,
    yields_resolve consistent, yields_hopAt consistent onWay.known,
    ⟨loads, follows, not_mem_reads follows⟩,
    tells_of_endsAt plain placed onWay (endsAt_of_follows follows),
    fun n h there => (onWay.hopped placed there).arrives placed⟩

/-- Two files, of which one leads into the other. -/
def kennelFiles : FileTree where
  entries := [(["dogs.yaml"], .file "title: Elsewhere\n"),
    (["pets.yaml"], .file "Pet:\n  $ref: dogs.yaml#Hound\n")]

/-- The document that stands for the first of the files. -/
def kennel : Scope where
  document := .object [("Dog", .object [("$ref", .string "pets.yaml#/Pet")]),
    ("Hound", .object [("type", .string "object")])]
  file := some ⟨"/dogs.yaml"⟩
  baseDir := ⟨"/"⟩

/-- The way leads out of the document and comes back into it, not to its file. -/
theorem kennel_along_hops : ∃ t,
    ((resolve kennel (.inFile (.pointer "/Dog"))).run.run (fresh kennelFiles)).1 = .ok t ∧
      t.file = none ∧ t.fragment = .name "Hound" := by
  have plain : Merge.HashFree kennelFiles := Merge.hashFree_of_names (by decide) (by decide)
  have placed : Placed kennel := by
    intro p place
    cases place
    have named : Location.Named ["dogs.yaml"] := by
      simp only [Location.Named, List.mem_singleton, forall_eq]
      decide
    exact ⟨⟨["dogs.yaml"], named, by decide⟩, by decide⟩
  have read : Reference.ofText "#/Dog" = .ok (.inFile (.pointer "/Dog")) := by decide
  obtain ⟨result, hops, run, each, _, tells, _⟩ := resolve_along_hops plain placed read
    (consistent_fresh kennelFiles)
  obtain ⟨_, run, _⟩ := run
  obtain ⟨_, third, _⟩ := each 2
  have lands : ((hopAt kennel ⟨kennel.file, kennel.baseDir⟩ (.inFile (.pointer "/Dog")) 2).run.run
      (fresh kennelFiles)).1.toOption.map (fun h => h.map fun h =>
        (h.target.file, h.target.fragment, aliasTarget? h.target.node)) =
      some (some (none, .name "Hound", none)) := by
    decide +kernel
  rw [third] at lands
  obtain ⟨h?, found, shape⟩ := exists_ok_of_map lands
  obtain ⟨h, rfl⟩ : ∃ h, h? = some h := by
    cases h? with
    | none => cases shape
    | some h => exact ⟨h, rfl⟩
  obtain ⟨file, shape⟩ := Prod.mk.inj (Option.some.inj shape)
  obtain ⟨fragment, ended⟩ := Prod.mk.inj shape
  refine ⟨h.target, ?_, file, fragment⟩
  rw [run]
  exact (tells.found h.target).mpr ⟨2, h, found, rfl, ended⟩

end ApiGraph.Resolver
