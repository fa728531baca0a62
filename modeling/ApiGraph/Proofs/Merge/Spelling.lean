import ApiGraph.Proofs.Merge.Meaning
import ApiGraph.Proofs.Resolver.Unbounded

/-! One node that is referred to in several ways. The key of a target holds its fragment as it was
written, so the node behind a top-level key has one key if it is called by name and another one if
it is called by a pointer. Its name is the same however it is written (`OneNode.name`), so a node is
brought in once at most; but whoever writes it in two ways has it collide with itself, or gets two
local references where it stands in the document (`one_node_one_form`). -/

namespace ApiGraph.Merge

open Resolver (Origin Consistent Landed)

variable {files : FileTree} {document : Json} {file : Option Path} {baseDir : Path} {root : Root}
  {targets : List Resolved} {names : Table String} {m : Merged} {s t : Resolved}

/-- Two targets that are one node: they stand in one file, at the end of one way. -/
def OneNode (s t : Resolved) : Prop := s.file = t.file ∧ s.fragment.keys = t.fragment.keys

instance (s t : Resolved) : Decidable (OneNode s t) := inferInstanceAs (Decidable (_ ∧ _))

/-- One node has one name. -/
theorem OneNode.name (one : OneNode s t) {scope scope' : Scope} (hs : Landed files scope s)
    (ht : Landed files scope' t) (written : s.fragment.Written) (written' : t.fragment.Written)
    (away : t.isInScope = false) : s.name = t.name := by
  obtain ⟨file, keys⟩ := one
  obtain ⟨p, tFile⟩ := Resolved.exists_file away
  have sFile := file.trans tFile
  obtain ⟨_, _, _, document, loaded, found⟩ := hs.there p sFile
  obtain ⟨_, _, _, document', loaded', found'⟩ := ht.there p tFile
  rw [loaded] at loaded'
  cases loaded'
  have node := Fragment.node_of_keys written written' keys found found'
  have segment : s.fragment.lastSegment? = t.fragment.lastSegment? := by
    rw [Fragment.lastSegment?_eq written, Fragment.lastSegment?_eq written', keys]
  rw [hs.named, ht.named, sFile, tFile, Resolver.nameOf, Resolver.nameOf, node, segment]
  rfl

/-- In one file, fragments that are written in two ways give two keys. -/
theorem fragment_of_canonical {scope scope' : Scope} (hs : Landed files scope s)
    (ht : Landed files scope' t) (written : s.fragment.Written) (written' : t.fragment.Written)
    {p : Path} (sFile : s.file = some p) (tFile : t.file = some p)
    (same : s.canonical = t.canonical) : s.fragment = t.fragment := by
  apply written.eq_of_text written'
  rw [hs.keyed, ht.keyed, sFile, tFile] at same
  simpa [String.append_assoc] using same

/-! Faults of resolving are never collisions. -/

/-- Two targets were given one name. -/
def isCollision : Fault → Bool
  | .nameCollision .. => true
  | _ => false

theorem ofText_not_collision {raw : String} {fault : Fault}
    (h : Reference.ofText raw = .error fault) : isCollision fault = false := by
  simp only [Reference.ofText] at h
  split at h
  · cases h
    rfl
  split at h
  · cases h
    rfl
  split at h <;> simp only at h <;> split at h <;> cases h

theorem load_not_collision {p : Path} {fault : Fault} (h : files.load p = .error fault) :
    isCollision fault = false := by
  rcases bind_eq_error.mp h with h | ⟨format, _, h⟩
  · unfold Format.ofPath at h
    split at h <;> cases h
    rfl
  · split at h
    · cases format <;> simp only [Format.read, Option.elim] at h <;> split at h <;> cases h <;> rfl
    · cases h
      rfl

theorem target_not_collision {scope : Scope} {origin : Origin} {ref : Reference} {fault : Fault}
    (h : Resolver.target files scope origin ref = .error fault) : isCollision fault = false := by
  rcases bind_eq_error.mp h with h | ⟨place, _, h⟩
  · cases ref with
    | inFile fragment => cases h
    | external path fragment =>
      simp only [Resolver.targetFile] at h
      split at h <;> cases h <;> rfl
  · have arrives : ∀ {document}, Resolver.arrive scope origin ref place document = .error fault →
        isCollision fault = false := by
      intro document h
      unfold Resolver.arrive at h
      split at h <;> cases h
      rfl
    split at h
    · exact arrives h
    · rcases bind_eq_error.mp h with h | ⟨document, _, h⟩
      · exact load_not_collision h
      · exact arrives h

theorem follows_not_collision {scope : Scope} {chain : List String} {origin : Origin}
    {ref : Reference} {reads : List Path} {result : Except Fault Resolved} {fault : Fault}
    (follows : Resolver.Follows files scope chain origin ref reads result)
    (h : result = .error fault) : isCollision fault = false := by
  induction follows with
  | lost missed =>
    cases h
    exact target_not_collision missed
  | again =>
    cases h
    rfl
  | ended => cases h
  | unread _ _ _ isBad =>
    cases h
    exact ofText_not_collision isBad
  | onward _ _ _ _ _ ih => exact ih h

theorem meaning_not_collision {origin : Origin} {raw : String} {fault : Fault}
    (h : meaning files root origin raw = .error fault) : isCollision fault = false := by
  rcases bind_eq_error.mp h with h | ⟨ref, _, h⟩
  · exact ofText_not_collision h
  · obtain ⟨_, follows, _⟩ := Resolver.reads_resolve files (root.scope origin.baseDir)
      ((origin.file.map ref.within).getD ref)
    exact follows_not_collision follows h

theorem addDefinitions_not_collision {out : Json} {added : Table Json} {fault : Fault}
    (h : addDefinitions out added = .error fault) : isCollision fault = false := by
  rw [addDefinitions] at h
  split at h
  · cases h
  rw [modifyDefinitions] at h
  split at h
  · split at h
    · split at h <;> cases h
      rfl
    · cases h
      rfl
  · cases h
    rfl

/-! One node in one merge. -/

/-- A merge fails with a collision only if it has met two targets with the two keys, which have the
one name. -/
theorem exists_of_collision {r : Resolver} (consistent : Consistent files r)
    {name first second : String} (failed : ((Merge.document document file baseDir).run.run r).1 =
      .error (.nameCollision name first second)) :
    ∃ s t, Reached files (Root.of document file) baseDir s ∧
      Reached files (Root.of document file) baseDir t ∧
      name ∉ (Root.of document file).authored ∧ s.name = name ∧ t.name = name ∧
      s.canonical = first ∧ t.canonical = second ∧ first ≠ second := by
  have blames : Blames files (Root.of document file) baseDir
      (depthLimit (Root.of document file) r) (fun fault => isCollision fault = true → ∃ s t,
        Reached files (Root.of document file) baseDir s ∧
        Reached files (Root.of document file) baseDir t ∧
        t.name ∉ (Root.of document file).authored ∧ s.name = t.name ∧
        s.canonical ≠ t.canonical ∧ fault = .nameCollision t.name s.canonical t.canonical) := by
    constructor
    case text =>
      intro _ _ _ _ _ _ unread clash
      simp [ofText_not_collision unread] at clash
    case meaning =>
      intro _ _ _ _ _ _ _ lost clash
      simp [meaning_not_collision lost] at clash
    case collision =>
      exact fun hs ht brought same apart _ => ⟨_, _, hs, ht, brought, same, apart, rfl⟩
    case shape => exact fun _ _ _ _ clash => nomatch clash
    case depth => exact fun _ _ clash => nomatch clash
  have law := meets_document consistent (fun _ clash => nomatch clash) blames (by
    intro _ _ _ form fault failed clash
    simp [addDefinitions_not_collision failed] at clash)
  obtain ⟨s, t, hs, ht, brought, same, apart, fault⟩ := law.of_error failed rfl
  cases fault
  exact ⟨s, t, hs, ht, brought, same, rfl, rfl, rfl, apart⟩

/-- What a target that was reached is like. -/
theorem Reached.landed (h : Reached files root baseDir t) :
    ∃ scope, Landed files scope t ∧ t.fragment.Written := by
  obtain ⟨_, origin, raw, leads⟩ := h.leads
  obtain ⟨landed, written, _⟩ := landed_meaning leads
  exact ⟨_, landed, written⟩

/-- No node is brought in twice. -/
theorem Account.nodes_once (account : Account files root baseDir targets names m) :
    targets.Pairwise fun s t => ¬ OneNode s t := by
  have apart : targets.Pairwise fun s t => s.name ≠ t.name :=
    List.pairwise_map.mp account.unique
  apply apart.imp_of_mem
  intro s t hs ht other one
  obtain ⟨_, landed, written⟩ := (account.reached s hs).1.landed
  obtain ⟨_, landed', written'⟩ := (account.reached t ht).1.landed
  exact other (one.name landed landed' written written' (account.reached t ht).1.leads.1)

/-- A string that was rewritten leads to a target, which has a name if it stands outside of the
document. -/
theorem Account.leads_of_rewritten
    (account : Account files (Root.of document file) baseDir targets names m) {origin : Origin}
    {raw : String} (rewritten : Rewritten document baseDir targets origin raw) :
    ¬ Stays origin raw ∧ ∃ t, meaning files (Root.of document file) origin raw = .ok t ∧
      (t.isInScope = true ∨ ∃ name, names.get? t.canonical = some name) := by
  cases rewritten with
  | inRoot met moves => exact ⟨moves, (account.settledRoot raw met).resolve_left moves⟩
  | inTarget brought met =>
    have moves := (account.reached _ brought).1.not_stays raw
    exact ⟨moves, (account.settledTargets _ brought raw met).resolve_left moves⟩

theorem localForm_here {origin : Origin} {raw : String} (moves : ¬ Stays origin raw)
    (leads : meaning files root origin raw = .ok t) (here : t.isInScope = true) :
    localForm files root names origin raw = "#" ++ t.fragment.text := by
  simp [localForm, moves, leads, here]

/-- What a merge makes of one node that is met in several ways. It brings no node in twice. Of two
strings that lead to one node both get the same local reference exactly if they write its fragment
alike, or if the node is referred to by a definition of the document. A name collides only for two
nodes, or for one node whose fragment is written in two ways. -/
theorem one_node_one_form {r : Resolver} (consistent : Consistent files r) :
    (∀ m, ((Merge.document document file baseDir).run.run r).1 = .ok m → ∃ targets names,
      Account files (Root.of document file) baseDir targets names m ∧
      (targets.Pairwise fun s t => ¬ OneNode s t) ∧
      ∀ origin raw origin' raw', Rewritten document baseDir targets origin raw →
        Rewritten document baseDir targets origin' raw' →
        ∃ s t, meaning files (Root.of document file) origin raw = .ok s ∧
          meaning files (Root.of document file) origin' raw' = .ok t ∧
          (OneNode s t →
            (localForm files (Root.of document file) names origin raw =
                localForm files (Root.of document file) names origin' raw' ↔
              s.fragment = t.fragment ∨ s.isInScope = false ∧ nameIn names t = nameIn names s ∧
                nameIn names s ∈ (Root.of document file).authored))) ∧
    ∀ name first second, ((Merge.document document file baseDir).run.run r).1 =
        .error (.nameCollision name first second) →
      ∃ s t, Reached files (Root.of document file) baseDir s ∧
        Reached files (Root.of document file) baseDir t ∧
        name ∉ (Root.of document file).authored ∧ s.name = name ∧ t.name = name ∧
        s.canonical = first ∧ t.canonical = second ∧
        (OneNode s t → s.fragment ≠ t.fragment) := by
  constructor
  · intro m merged
    obtain ⟨_, targets, names, account⟩ := account_of_run consistent merged
    refine ⟨targets, names, account, account.nodes_once, ?_⟩
    intro origin raw origin' raw' rewritten rewritten'
    obtain ⟨moves, s, leads, named⟩ := account.leads_of_rewritten rewritten
    obtain ⟨moves', t, leads', named'⟩ := account.leads_of_rewritten rewritten'
    refine ⟨s, t, leads, leads', ?_⟩
    rintro ⟨place, keys⟩
    obtain ⟨landed, written, _⟩ := landed_meaning leads
    obtain ⟨landed', written', _⟩ := landed_meaning leads'
    by_cases here : s.isInScope = true
    · have here' : t.isInScope = true := by rwa [Resolved.isInScope, ← place]
      rw [localForm_here moves leads here, localForm_here moves' leads' here',
        String.append_right_inj]
      simp only [here, Bool.true_eq_false, false_and, or_false]
      exact ⟨written.eq_of_text written', fun same => by rw [same]⟩
    · have away : s.isInScope = false := by simpa using here
      have away' : t.isInScope = false := by rwa [Resolved.isInScope, ← place]
      obtain ⟨name, named⟩ := named.resolve_left here
      obtain ⟨name', named'⟩ := named'.resolve_left (by simp [away'])
      obtain ⟨p, tFile⟩ := Resolved.exists_file away'
      have sFile := place.trans tFile
      rw [(form_of_named moves leads away named).2, (form_of_named moves' leads' away' named').2,
        nameIn, nameIn, named, named', Option.getD_some, Option.getD_some]
      constructor
      · intro same
        obtain rfl := definitionRef_injective same
        by_cases authored : name ∈ (Root.of document file).authored
        · exact Or.inr ⟨away, rfl, authored⟩
        · -- Both keys belong to the one target that was brought in under the name.
          obtain ⟨u, _, key, isName, brought⟩ := account.known _ _ named
          obtain ⟨u', _, key', isName', brought'⟩ := account.known _ _ named'
          have one : u = u' := List.inj_on_of_nodup_map account.unique
            (brought.resolve_left authored) (brought'.resolve_left authored)
            (isName.trans isName'.symm)
          have same : s.canonical = t.canonical := by rw [← key, ← key', one]
          exact Or.inl (fragment_of_canonical landed landed' written written' sFile tFile same)
      · rintro (fragment | ⟨_, same, _⟩)
        · have one := landed.eq_of_place landed' sFile tFile fragment
          rw [one, named'] at named
          rw [Option.some.inj named]
        · rw [same]
  · intro name first second failed
    obtain ⟨s, t, hs, ht, brought, sName, tName, rfl, rfl, apart⟩ := exists_of_collision consistent
      failed
    refine ⟨s, t, hs, ht, brought, sName, tName, rfl, rfl, ?_⟩
    intro one fragment
    obtain ⟨_, landed, _⟩ := hs.landed
    obtain ⟨_, landed', _⟩ := ht.landed
    obtain ⟨p, tFile⟩ := Resolved.exists_file ht.leads.1
    exact apart (by rw [landed.eq_of_place landed' (one.1.trans tFile) tFile fragment])

/-- A document that refers to one pet by two paths. -/
def petPair : Json :=
  .object [("first", .object [("$ref", .string "pet.yaml#/Pet")]),
    ("second", .object [("$ref", .string "./pet.yaml#/Pet")])]

/-- A document that refers to one pet by a pointer and by its name. -/
def petTwice : Json :=
  .object [("first", .object [("$ref", .string "pet.yaml#Pet")]),
    ("second", .object [("$ref", .string "pet.yaml#/Pet")])]

/-- The two paths come to one local reference. -/
theorem petPair_one_form : ∃ m targets names, result petFiles petPair none ⟨"/"⟩ = .ok m ∧
    Account petFiles (Root.of petPair none) ⟨"/"⟩ targets names m ∧
    localForm petFiles (Root.of petPair none) names ⟨none, ⟨"/"⟩⟩ "pet.yaml#/Pet" =
      localForm petFiles (Root.of petPair none) names ⟨none, ⟨"/"⟩⟩ "./pet.yaml#/Pet" := by
  have run : (result petFiles petPair none ⟨"/"⟩).toOption.map (fun m => Table.keys m.inlined) =
      some ["Pet"] := by
    decide +kernel
  have lands : ∀ raw ∈ ["pet.yaml#/Pet", "./pet.yaml#/Pet"],
      (meaning petFiles (Root.of petPair none) ⟨none, ⟨"/"⟩⟩ raw).toOption.map (fun t =>
        (t.file, t.fragment)) = some (some ⟨"/pet.yaml"⟩, .pointer "/Pet") := by
    decide +kernel
  obtain ⟨m, merged, _⟩ := exists_ok_of_map run
  obtain ⟨targets, names, account, _, forms⟩ :=
    (one_node_one_form (Resolver.consistent_fresh petFiles)).1 m
      ((run_fresh _ _ _ _).trans merged)
  obtain ⟨s, t, leads, leads', alike⟩ := forms _ _ _ _
    (.inRoot (show "pet.yaml#/Pet" ∈ petPair.refs by decide) (by decide))
    (.inRoot (show "./pet.yaml#/Pet" ∈ petPair.refs by decide) (by decide))
  have first := lands "pet.yaml#/Pet" (by simp)
  have second := lands "./pet.yaml#/Pet" (by simp)
  rw [leads] at first
  rw [leads'] at second
  obtain ⟨file, fragment⟩ := Prod.mk.inj (Option.some.inj first)
  obtain ⟨file', fragment'⟩ := Prod.mk.inj (Option.some.inj second)
  have one : OneNode s t := ⟨file.trans file'.symm, by rw [fragment, fragment']⟩
  exact ⟨m, targets, names, merged, account, (alike one).mpr (Or.inl (fragment.trans fragment'.symm))⟩

/-- The name and the pointer lead to one node, which collides with itself. -/
theorem petTwice_collides : (∃ s t,
      meaning petFiles (Root.of petTwice none) ⟨none, ⟨"/"⟩⟩ "pet.yaml#Pet" = .ok s ∧
      meaning petFiles (Root.of petTwice none) ⟨none, ⟨"/"⟩⟩ "pet.yaml#/Pet" = .ok t ∧
      OneNode s t) ∧
    result petFiles petTwice none ⟨"/"⟩ =
      .error (.nameCollision "Pet" "/pet.yaml#Pet" "/pet.yaml#/Pet") := by
  constructor
  · have first : (meaning petFiles (Root.of petTwice none) ⟨none, ⟨"/"⟩⟩
        "pet.yaml#Pet").toOption.map (fun s => (s.file, s.fragment.keys)) =
        some (some ⟨"/pet.yaml"⟩, ["Pet"]) := by
      decide +kernel
    have second : (meaning petFiles (Root.of petTwice none) ⟨none, ⟨"/"⟩⟩
        "pet.yaml#/Pet").toOption.map (fun t => (t.file, t.fragment.keys)) =
        some (some ⟨"/pet.yaml"⟩, ["Pet"]) := by
      decide +kernel
    obtain ⟨s, leads, shape⟩ := exists_ok_of_map first
    obtain ⟨t, leads', shape'⟩ := exists_ok_of_map second
    obtain ⟨file, keys⟩ := Prod.mk.inj shape
    obtain ⟨file', keys'⟩ := Prod.mk.inj shape'
    exact ⟨s, t, leads, leads', file.trans file'.symm, keys.trans keys'.symm⟩
  · have failed : (result petFiles petTwice none ⟨"/"⟩).map (fun _ => ()) =
        .error (.nameCollision "Pet" "/pet.yaml#Pet" "/pet.yaml#/Pet") := by
      decide +kernel
    cases run : result petFiles petTwice none ⟨"/"⟩ with
    | ok m =>
      rw [run] at failed
      cases failed
    | error fault =>
      rw [run] at failed
      cases failed
      rfl

end ApiGraph.Merge
