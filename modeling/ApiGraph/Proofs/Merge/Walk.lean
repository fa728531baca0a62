import ApiGraph.Proofs.Merge.Verdict
import ApiGraph.Proofs.Resolver.Outcome
import Mathlib.Data.List.Nodup

/-! What the walk of a merge does. A reference string that stands in the document or in a node that
was brought in is turned into its local form, which depends on the table of names alone and stays
the same once the target has its name (`growth`). `Sound` is what holds while targets are open:
every name belongs to a target that was reached, and every target that is not open stands among
the inlined nodes with its strings in local form. `Blames` lists the reasons for which a walk can
fail. -/

namespace ApiGraph

/-- Where the references within a target stand. -/
def Resolved.origin (t : Resolved) : Resolver.Origin := ⟨t.file, t.baseDir⟩

namespace Merge

open Resolver (Origin Consistent outcome)

/-- What a reference string leads to that stands in the document, which counts as no file, or in a
node that was brought in. -/
def meaning (files : FileTree) (root : Root) (origin : Origin) (raw : String) :
    Except Fault Resolved := do
  let ref ← Reference.ofText raw
  outcome files (root.scope origin.baseDir) ((origin.file.map ref.within).getD ref)

theorem fragment_within (ref : Reference) (file : Path) :
    (ref.within file).fragment = ref.fragment := by
  cases ref <;> rfl

/-- What a reference string leads to is no reference itself, and can be written as a fragment. -/
theorem landed_meaning {files : FileTree} {root : Root} {origin : Origin} {raw : String}
    {t : Resolved} (h : meaning files root origin raw = .ok t) :
    Resolver.Landed files (root.scope origin.baseDir) t ∧ t.fragment.Written ∧
      aliasTarget? t.node = none := by
  rw [meaning] at h
  cases read : Reference.ofText raw with
  | error fault =>
    rw [read, error_bind] at h
    cases h
  | ok ref =>
    rw [read, ok_bind] at h
    apply Resolver.landed_outcome _ h
    have written := Reference.fragment_written read
    cases origin.file with
    | none => exact written
    | some file =>
      rw [Option.map_some, Option.getD_some, fragment_within]
      exact written

/-- A local reference in the document is left as it is. -/
def Stays (origin : Origin) (raw : String) : Prop :=
  origin.file = none ∧ Reference.IsLocalText raw

instance (origin : Origin) (raw : String) : Decidable (Stays origin raw) :=
  inferInstanceAs (Decidable (_ ∧ _))

/-- The form that a reference string takes, with the names by which targets are referred to. -/
def localForm (files : FileTree) (root : Root) (names : Table String) (origin : Origin)
    (raw : String) : String :=
  if Stays origin raw then raw
  else
    match meaning files root origin raw with
    | .error _ => raw
    | .ok t =>
      if t.isInScope then "#" ++ t.fragment.text
      else ((names.get? t.canonical).map definitionRef).getD raw

/-- The form of a reference string will not change any more. -/
def Settled (files : FileTree) (root : Root) (names : Table String) (origin : Origin)
    (raw : String) : Prop :=
  Stays origin raw ∨ ∃ t, meaning files root origin raw = .ok t ∧
    (t.isInScope = true ∨ ∃ name, names.get? t.canonical = some name)

/-- A reference string that leads out of the document. -/
structure Away (files : FileTree) (root : Root) (origin : Origin) (raw : String) (t : Resolved) :
    Prop where
  moves : ¬ Stays origin raw
  leads : meaning files root origin raw = .ok t
  away : t.isInScope = false

/-- A target outside of the document that the document itself refers to. -/
def Near (files : FileTree) (root : Root) (baseDir : Path) (t : Resolved) : Prop :=
  ∃ raw ∈ root.document.refs, Away files root ⟨none, baseDir⟩ raw t

/-- The targets outside of the document that a merge meets, in the document itself or in a target
that is no definition of it. -/
inductive Reached (files : FileTree) (root : Root) (baseDir : Path) : Resolved → Prop
  | inRoot {raw : String} {t : Resolved} (met : raw ∈ root.document.refs)
    (moves : ¬ Stays ⟨none, baseDir⟩ raw) (leads : meaning files root ⟨none, baseDir⟩ raw = .ok t)
    (away : t.isInScope = false) : Reached files root baseDir t
  | inTarget {s : Resolved} {raw : String} {t : Resolved} (before : Reached files root baseDir s)
    (brought : s.name ∉ root.authored) (met : raw ∈ s.node.refs)
    (leads : meaning files root s.origin raw = .ok t) (away : t.isInScope = false) :
    Reached files root baseDir t

theorem Reached.leads {files : FileTree} {root : Root} {baseDir : Path} {t : Resolved}
    (h : Reached files root baseDir t) :
    t.isInScope = false ∧ ∃ origin raw, meaning files root origin raw = .ok t := by
  cases h with
  | inRoot _ _ leads away => exact ⟨away, _, _, leads⟩
  | inTarget _ _ _ leads away => exact ⟨away, _, _, leads⟩

/-- Nothing in a target from another file is left as it is. -/
theorem Reached.not_stays {files : FileTree} {root : Root} {baseDir : Path} {t : Resolved}
    (h : Reached files root baseDir t) (raw : String) : ¬ Stays t.origin raw := by
  intro stays
  have file : t.file = none := stays.1
  have away := h.leads.1
  simp [Resolved.isInScope, file] at away

/-- The documents whose strings a merge meets, with the place where they stand. -/
inductive Visited (files : FileTree) (root : Root) (baseDir : Path) : Origin → Json → Prop
  | document : Visited files root baseDir ⟨none, baseDir⟩ root.document
  | target {t : Resolved} (reached : Reached files root baseDir t)
    (brought : t.name ∉ root.authored) : Visited files root baseDir t.origin t.node

variable {files : FileTree} {root : Root} {baseDir : Path}

theorem Visited.reached {origin : Origin} {node : Json} {raw : String} {t : Resolved}
    (h : Visited files root baseDir origin node) (met : raw ∈ node.refs)
    (moves : ¬ Stays origin raw) (leads : meaning files root origin raw = .ok t)
    (away : t.isInScope = false) : Reached files root baseDir t := by
  cases h with
  | document => exact .inRoot met moves leads away
  | target reached brought => exact .inTarget reached brought met leads away

/-- Once its target has a name, a reference string has the form of a reference to it. -/
theorem form_of_named {names : Table String} {origin : Origin} {raw name : String} {t : Resolved}
    (moves : ¬ Stays origin raw) (leads : meaning files root origin raw = .ok t)
    (away : t.isInScope = false) (named : names.get? t.canonical = some name) :
    Settled files root names origin raw ∧
      localForm files root names origin raw = definitionRef name := by
  refine ⟨Or.inr ⟨t, leads, Or.inr ⟨name, named⟩⟩, ?_⟩
  simp [localForm, moves, leads, away, named]

/-- A name that is given for the first time takes none away. -/
theorem insert_grows {names : Table String} {canonical : String}
    (unnamed : names.get? canonical = none) (given : String) : ∀ key name,
    names.get? key = some name → (names.insert canonical given).get? key = some name := by
  intro key name named
  rw [Table.get?_insert_ne _ _ _, named]
  rintro rfl
  rw [unnamed] at named
  cases named

/-- Names are only ever added. -/
def growth (files : FileTree) (root : Root) (origin : Origin) : Growth Walk where
  le w w' := ∀ key name, w.assigned.get? key = some name → w'.assigned.get? key = some name
  settled w raw := Settled files root w.assigned origin raw
  form w raw := localForm files root w.assigned origin raw
  refl _ _ _ h := h
  trans first later key name h := later key name (first key name h)
  keep := by
    rintro s t raw grows (stays | ⟨target, leads, here | ⟨name, named⟩⟩)
    · exact Or.inl stays
    · exact Or.inr ⟨target, leads, Or.inl here⟩
    · exact Or.inr ⟨target, leads, Or.inr ⟨name, grows _ _ named⟩⟩
  same := by
    rintro s t raw grows (stays | ⟨target, leads, here | ⟨name, named⟩⟩)
    · simp [localForm, stays]
    · simp [localForm, leads, here]
    · simp [localForm, leads, named, grows _ _ named]

/-- What holds of a walk, with the targets that were given a name so far and those of them that
are open. -/
structure Sound (files : FileTree) (root : Root) (baseDir : Path) (active targets : List Resolved)
    (w : Walk) : Prop where
  consistent : Consistent files w.resolver
  owners : w.owners = targets.map fun t => (t.name, t.canonical)
  names : Table.keys w.inlined = targets.map (·.name)
  unique : (targets.map (·.name)).Nodup
  reached : ∀ t ∈ targets, Reached files root baseDir t ∧ t.name ∉ root.authored ∧
    t.node.isObject = true
  assigned : ∀ t ∈ targets, w.assigned.get? t.canonical = some t.name
  known : ∀ key name, w.assigned.get? key = some name → ∃ t, Reached files root baseDir t ∧
    t.canonical = key ∧ t.name = name ∧ (name ∈ root.authored ∨ t ∈ targets)
  /-- The strings of a target are met when it has a name. -/
  early : targets = [] → ∀ key name, w.assigned.get? key = some name →
    ∃ t, Near files root baseDir t ∧ t.canonical = key ∧ t.name = name
  opened : ∀ t ∈ active, t ∈ targets
  finished : ∀ t ∈ targets, t ∈ active ∨
    w.inlined.get? t.name =
      some (t.node.mapRefs (localForm files root w.assigned t.origin)) ∧
    ∀ raw ∈ t.node.refs, Settled files root w.assigned t.origin raw

namespace Sound

variable {active targets : List Resolved} {w : Walk}

theorem start {r : Resolver} (consistent : Consistent files r) :
    Sound files root baseDir [] [] { resolver := r } where
  consistent
  owners := rfl
  names := rfl
  unique := by simp
  reached := by simp
  assigned := by simp
  known := by simp
  early := by simp
  opened := by simp
  finished := by simp

/-- A name that is taken belongs to a target. -/
theorem exists_owner (h : Sound files root baseDir active targets w) {name first : String}
    (owned : w.owners.get? name = some first) :
    ∃ s ∈ targets, s.name = name ∧ s.canonical = first := by
  have member := Table.mem_of_get?_eq_some owned
  rw [h.owners, List.mem_map] at member
  obtain ⟨s, place, same⟩ := member
  cases same
  exact ⟨s, place, rfl, rfl⟩

theorem withResolver (h : Sound files root baseDir active targets w) {r : Resolver}
    (consistent : Consistent files r) :
    Sound files root baseDir active targets { w with resolver := r } :=
  { h with consistent }

/-- What was finished stays so while names are added. -/
theorem finished_of_le (h : Sound files root baseDir active targets w) {names : Table String}
    (grows : ∀ key name, w.assigned.get? key = some name → names.get? key = some name)
    {t : Resolved} (member : t ∈ targets) : t ∈ active ∨
      w.inlined.get? t.name = some (t.node.mapRefs (localForm files root names t.origin)) ∧
      ∀ raw ∈ t.node.refs, Settled files root names t.origin raw := by
  have later : (growth files root t.origin).le w { w with assigned := names } := grows
  rcases h.finished t member with active | ⟨inlined, settled⟩
  · exact Or.inl active
  · refine Or.inr ⟨?_, fun raw met => (growth files root t.origin).keep later (settled raw met)⟩
    rw [inlined]
    congr 1
    apply Json.mapRefs_congr
    intro raw met
    exact ((growth files root t.origin).same later (settled raw met)).symm

/-- A target with the name of a definition of the document is referred to by it. -/
theorem assign (h : Sound files root baseDir active targets w) {t : Resolved}
    (reached : Reached files root baseDir t) (authored : t.name ∈ root.authored)
    (unnamed : w.assigned.get? t.canonical = none)
    (near : targets = [] → Near files root baseDir t) :
    Sound files root baseDir active targets
      { w with assigned := Table.insert w.assigned t.canonical t.name } := by
  have grows := insert_grows unnamed t.name
  refine { h with assigned := ?_, known := ?_, early := ?_, finished := ?_ }
  · exact fun s member => grows _ _ (h.assigned s member)
  · intro key name named
    simp only [Table.get?_insert] at named
    split at named
    · rename_i same
      cases named
      exact ⟨t, reached, same, rfl, Or.inl authored⟩
    · exact h.known key name named
  · intro none key name named
    simp only [Table.get?_insert] at named
    split at named
    · rename_i same
      cases named
      exact ⟨t, near none, same, rfl⟩
    · exact h.early none key name named
  · exact fun s member => h.finished_of_le grows member

/-- A name that is not taken is the name of no target. -/
theorem absent_of_free (h : Sound files root baseDir active targets w) {name : String}
    (free : w.owners.get? name = none) : name ∉ targets.map (·.name) := by
  rw [Table.get?_eq_none_iff, h.owners] at free
  simpa [Table.keys] using free

/-- A target takes a name and is open. -/
theorem reserve (h : Sound files root baseDir active targets w) {t : Resolved}
    (reached : Reached files root baseDir t) (brought : t.name ∉ root.authored)
    (shape : t.node.isObject = true) (unnamed : w.assigned.get? t.canonical = none)
    (free : w.owners.get? t.name = none) :
    Sound files root baseDir (t :: active) (targets ++ [t]) (w.reserve t.name t.canonical) where
  consistent := h.consistent
  owners := by
    simp only [Walk.reserve]
    rw [Table.insert_of_not_mem (Table.get?_eq_none_iff.mp free), h.owners]
    simp
  names := by
    have absent : t.name ∉ Table.keys w.inlined := h.names ▸ h.absent_of_free free
    rw [Walk.reserve, Table.keys_insert_of_not_mem absent, h.names]
    simp
  unique := by
    rw [List.map_append, List.nodup_append]
    refine ⟨h.unique, by simp, ?_⟩
    rintro name member other single rfl
    rw [List.map_singleton, List.mem_singleton] at single
    exact h.absent_of_free free (single ▸ member)
  reached := by
    rw [List.forall_mem_append, List.forall_mem_singleton]
    exact ⟨h.reached, reached, brought, shape⟩
  assigned := by
    rw [List.forall_mem_append, List.forall_mem_singleton]
    refine ⟨fun s member => ?_, Table.get?_insert_self ..⟩
    exact insert_grows unnamed t.name _ _ (h.assigned s member)
  known := by
    intro key name named
    simp only [Walk.reserve, Table.get?_insert] at named
    split at named
    · rename_i same
      cases named
      exact ⟨t, reached, same, rfl, Or.inr (by simp)⟩
    · obtain ⟨s, found, key, name, place⟩ := h.known key name named
      exact ⟨s, found, key, name, place.imp id fun member => by simp [member]⟩
  early := by simp
  opened := by
    rw [List.forall_mem_cons]
    exact ⟨by simp, fun s member => List.mem_append_left _ (h.opened s member)⟩
  finished := by
    rw [List.forall_mem_append, List.forall_mem_singleton]
    refine ⟨fun s member => ?_, Or.inl (by simp)⟩
    rcases h.finished_of_le (insert_grows unnamed t.name) member with active | ⟨inlined, settled⟩
    · exact Or.inl (List.mem_cons_of_mem _ active)
    · refine Or.inr ⟨?_, settled⟩
      have other : t.name ≠ s.name := fun same =>
        h.absent_of_free free (same ▸ List.mem_map_of_mem member)
      simp only [Walk.reserve]
      rw [Table.get?_insert_ne other, inlined]

/-- An open target is finished when its node is there with its strings in local form. -/
theorem finish {t : Resolved} (h : Sound files root baseDir (t :: active) targets w)
    (settled : ∀ raw ∈ t.node.refs, Settled files root w.assigned t.origin raw) :
    Sound files root baseDir active targets { w with
      inlined := Table.insert w.inlined t.name
        (t.node.mapRefs (localForm files root w.assigned t.origin)) } := by
  have member := h.opened t (by simp)
  refine { h with names := ?_, opened := ?_, finished := ?_ }
  · have present : t.name ∈ Table.keys w.inlined := by
      rw [h.names]
      exact List.mem_map.mpr ⟨t, member, rfl⟩
    simp only
    rw [Table.keys_insert_of_mem present, h.names]
  · exact fun s active => h.opened s (by simp [active])
  · intro s place
    by_cases same : s = t
    · subst s
      exact Or.inr ⟨by simp, settled⟩
    · rcases h.finished s place with active | ⟨inlined, done⟩
      · exact Or.inl (by simpa [same] using active)
      · refine Or.inr ⟨?_, done⟩
        have other : t.name ≠ s.name := by
          intro clash
          exact same (List.inj_on_of_nodup_map h.unique place member clash.symm)
        simp only
        rw [Table.get?_insert_ne other, inlined]

end Sound

/-- What a condition on faults must allow for, so that every fault of a walk meets it: a string
that cannot be read or leads nowhere, and of the targets that are not called like a definition of
the document two with one name, one that is no object, and too many that are nested. -/
structure Blames (files : FileTree) (root : Root) (baseDir : Path) (limit : Nat)
    (fails : Fault → Prop) : Prop where
  text : ∀ {origin node raw fault}, Visited files root baseDir origin node → raw ∈ node.refs →
    Reference.ofText raw = .error fault → fails fault
  meaning : ∀ {origin node raw fault}, Visited files root baseDir origin node → raw ∈ node.refs →
    ¬ Stays origin raw → meaning files root origin raw = .error fault → fails fault
  collision : ∀ {s t}, Reached files root baseDir s → Reached files root baseDir t →
    t.name ∉ root.authored → s.name = t.name → s.canonical ≠ t.canonical →
    fails (.nameCollision t.name s.canonical t.canonical)
  shape : ∀ {t}, Reached files root baseDir t → t.name ∉ root.authored →
    t.node.isObject = false → ∀ raw, fails (.cannotMerge (.targetNotObject raw))
  depth : ∀ {active targets w}, Sound files root baseDir active targets w →
    limit ≤ targets.length → fails (.referenceCycle w.owners.values)

/-- A walk that is sound, with at least so many targets. -/
def Holds (files : FileTree) (root : Root) (baseDir : Path) (n : Nat) (active : List Resolved)
    (w : Walk) : Prop :=
  ∃ targets, n ≤ targets.length ∧ Sound files root baseDir active targets w

variable {fails : Fault → Prop} {limit : Nat}

/-- What a string is found to lead to is what it means. -/
theorem meets_look {origin : Origin} {raw : String} {w : Walk}
    {post : Option Resolved → Walk → Prop} (consistent : Consistent files w.resolver)
    (unread : ∀ fault, Reference.ofText raw = .error fault → fails fault)
    (lost : ∀ fault, ¬ Stays origin raw → meaning files root origin raw = .error fault →
      fails fault)
    (stays : ∀ ref, Reference.ofText raw = .ok ref → Stays origin raw → post none w)
    (leads : ∀ t r, ¬ Stays origin raw → meaning files root origin raw = .ok t →
      Consistent files r → post (some t) { w with resolver := r }) :
    Meets (look root origin raw) w post fails := by
  rw [look]
  apply Meets.lift_bind
  · intro ref read
    have isLocal := Reference.isLocal_iff_isLocalText read
    split
    · rename_i text file
      exact Meets.pure (stays ref read ⟨file, isLocal.mp text⟩)
    · rename_i moves
      have moves : ¬ Stays origin raw := fun stays => moves (isLocal.mpr stays.2) stays.1
      have meant : meaning files root origin raw =
          outcome files (root.scope origin.baseDir) ((origin.file.map ref.within).getD ref) := by
        rw [meaning, read, ok_bind]
      obtain ⟨r, run, consistent⟩ := @Resolver.yields_resolve _ (root.scope origin.baseDir)
        ((origin.file.map ref.within).getD ref) _ consistent
      rw [← meant] at run
      rw [map_eq_pure_bind]
      apply Meets.bind
      rw [withResolver]
      apply Meets.get_bind
      rw [run]
      cases found : meaning files root origin raw with
      | error fault => exact lost fault moves found
      | ok t => exact leads t r moves found consistent
  · exact unread

/-- What has to hold in each of the ways in which one string can be rewritten, or not be. -/
structure Answers (files : FileTree) (root : Root) (bring : Resolved → WalkM Json)
    (origin : Origin) (raw : String) (w : Walk) (post : String → Walk → Prop)
    (fails : Fault → Prop) : Prop where
  unread : ∀ fault, Reference.ofText raw = .error fault → fails fault
  lost : ∀ fault, ¬ Stays origin raw → meaning files root origin raw = .error fault → fails fault
  stays : ∀ ref, Reference.ofText raw = .ok ref → Stays origin raw → post raw w
  here : ∀ t r, ¬ Stays origin raw → meaning files root origin raw = .ok t → t.isInScope = true →
    Consistent files r → post ("#" ++ t.fragment.text) { w with resolver := r }
  again : ∀ t r name, Away files root origin raw t → Consistent files r →
    w.assigned.get? t.canonical = some name → post (definitionRef name) { w with resolver := r }
  authored : ∀ t r, Away files root origin raw t → Consistent files r →
    w.assigned.get? t.canonical = none → t.name ∈ root.authored →
    post (definitionRef t.name)
      { w with resolver := r, assigned := Table.insert w.assigned t.canonical t.name }
  collision : ∀ t first, Away files root origin raw t → w.assigned.get? t.canonical = none →
    t.name ∉ root.authored → w.owners.get? t.name = some first →
    fails (.nameCollision t.name first t.canonical)
  shape : ∀ t, Away files root origin raw t → t.name ∉ root.authored → t.node.isObject = false →
    fails (.cannotMerge (.targetNotObject raw))
  brought : ∀ t r, Away files root origin raw t → Consistent files r →
    w.assigned.get? t.canonical = none → t.name ∉ root.authored → w.owners.get? t.name = none →
    t.node.isObject = true →
    Meets (bring t) ({ w with resolver := r }.reserve t.name t.canonical) (fun node w' =>
      post (definitionRef t.name) { w' with inlined := Table.insert w'.inlined t.name node }) fails

/-- One string is rewritten as its ways say. -/
theorem meets_rewriteRef_of {bring : Resolved → WalkM Json} {origin : Origin} {raw : String}
    {w : Walk} {post : String → Walk → Prop} (consistent : Consistent files w.resolver)
    (answers : Answers files root bring origin raw w post fails) :
    Meets (rewriteRef root bring origin.file origin.baseDir raw) w post fails := by
  rw [rewriteRef_eq]
  apply Meets.bind
  apply meets_look consistent answers.unread answers.lost
  · intro ref read stays
    apply Meets.get_bind
    apply Meets.modify_bind
    exact Meets.pure (answers.stays ref read stays)
  · intro t r moves found consistent
    apply Meets.get_bind
    have names : ({ w with resolver := r } : Walk).ledger.assigned = w.assigned := rfl
    have owners : ({ w with resolver := r } : Walk).ledger.owners = w.owners := rfl
    rw [judge, names, owners]
    by_cases here : t.isInScope = true
    · rw [if_pos here]
      apply Meets.modify_bind
      exact Meets.pure (answers.here t r moves found here consistent)
    · have away : Away files root origin raw t := ⟨moves, found, by simpa using here⟩
      rw [if_neg here]
      cases named : w.assigned.get? t.canonical with
      | some name =>
        apply Meets.modify_bind
        exact Meets.pure (answers.again t r name away consistent named)
      | none =>
        simp only
        by_cases authored : t.name ∈ root.authored
        · rw [if_pos authored]
          apply Meets.modify_bind
          exact Meets.pure (answers.authored t r away consistent named authored)
        · rw [if_neg authored]
          cases owned : w.owners.get? t.name with
          | some first => exact Meets.throw (answers.collision t first away named authored owned)
          | none =>
            simp only
            by_cases shape : t.node.isObject = true
            · rw [if_pos shape]
              apply Meets.modify_bind
              apply Meets.bind
              apply (answers.brought t r away consistent named authored owned shape).mono
              intro node w' holds
              apply Meets.modify_bind
              exact Meets.pure holds
            · rw [if_neg shape]
              exact Meets.throw (answers.shape t away authored (by simpa using shape))

/-- A reference string is turned into its local form, if the bringing in of a target does what it
should. -/
theorem meets_rewriteRef (blames : Blames files root baseDir limit fails)
    {bring : Resolved → WalkM Json} {depth : Nat}
    (brings : ∀ {t n active w}, Reached files root baseDir t → t.name ∉ root.authored →
      0 < n → Holds files root baseDir n active w → limit ≤ n + depth →
      Meets (bring t) w (fun node w' =>
        (growth files root t.origin).After (Holds files root baseDir n active) w t.node.refs w' ∧
        node = t.node.mapRefs (localForm files root w'.assigned t.origin)) fails)
    {origin : Origin} {node : Json} (visited : Visited files root baseDir origin node)
    {raw : String} (met : raw ∈ node.refs) {n : Nat} {active : List Resolved} {w : Walk}
    (first : n = 0 → origin = ⟨none, baseDir⟩ ∧ node = root.document)
    (holds : Holds files root baseDir n active w) (deep : limit ≤ n + depth + 1) :
    Meets (rewriteRef root bring origin.file origin.baseDir raw) w (fun out w' =>
      (growth files root origin).After (Holds files root baseDir n active) w [raw] w' ∧
      out = localForm files root w'.assigned origin raw) fails := by
  obtain ⟨targets, many, sound⟩ := holds
  have reached : ∀ {t}, Away files root origin raw t → Reached files root baseDir t :=
    fun away => visited.reached met away.moves away.leads away.away
  apply meets_rewriteRef_of sound.consistent
  constructor
  case unread => exact fun fault unread => blames.text visited met unread
  case lost => exact fun fault moves lost => blames.meaning visited met moves lost
  case stays =>
    intro ref _ stays
    exact ⟨.single ⟨targets, many, sound⟩ (fun _ _ => id) (Or.inl stays), by simp [localForm, stays]⟩
  case here =>
    intro t r moves leads here consistent
    exact ⟨.single ⟨targets, many, sound.withResolver consistent⟩ (fun _ _ => id)
      (Or.inr ⟨t, leads, Or.inl here⟩), by simp [localForm, moves, leads, here]⟩
  case again =>
    intro t r name away consistent named
    obtain ⟨settled, form⟩ := form_of_named away.moves away.leads away.away named
    exact ⟨.single ⟨targets, many, sound.withResolver consistent⟩ (fun _ _ => id) settled,
      form.symm⟩
  case authored =>
    intro t r away consistent unnamed authored
    have near : targets = [] → Near files root baseDir t := by
      rintro rfl
      obtain ⟨rfl, rfl⟩ := first (Nat.le_zero.mp many)
      exact ⟨raw, met, away⟩
    have sound := (sound.withResolver consistent).assign (reached away) authored unnamed near
    obtain ⟨settled, form⟩ := form_of_named away.moves away.leads away.away
      (Table.get?_insert_self w.assigned t.canonical t.name)
    exact ⟨.single ⟨targets, many, sound⟩ (insert_grows unnamed t.name) settled, form.symm⟩
  case collision =>
    intro t first away unnamed brought owned
    obtain ⟨s, member, same, rfl⟩ := sound.exists_owner owned
    apply blames.collision (sound.reached s member).1 (reached away) brought same
    intro clash
    rw [← clash, sound.assigned s member] at unnamed
    cases unnamed
  case shape =>
    exact fun t away brought shape => blames.shape (reached away) brought shape raw
  case brought =>
    intro t r away consistent unnamed brought free shape
    have sound := (sound.withResolver consistent).reserve (reached away) brought shape unnamed free
    have holds : Holds files root baseDir (n + 1) (t :: active) _ :=
      ⟨targets ++ [t], by simpa using many, sound⟩
    apply (brings (reached away) brought (Nat.succ_pos n) holds (by omega)).mono
    rintro node w' ⟨⟨⟨targets, more, sound⟩, grows, settled⟩, rfl⟩
    have kept := grows _ _ (Table.get?_insert_self w.assigned t.canonical t.name)
    obtain ⟨isSettled, form⟩ := form_of_named away.moves away.leads away.away kept
    refine ⟨.single ⟨targets, by omega, sound.finish settled⟩ ?_ isSettled, form.symm⟩
    exact fun key name old => grows _ _ (insert_grows unnamed t.name key name old)

/-- A target that is open is brought in with its strings in local form. -/
theorem meets_bring (blames : Blames files root baseDir limit fails) (depth : Nat) {t : Resolved}
    (reached : Reached files root baseDir t) (brought : t.name ∉ root.authored) {n : Nat}
    (some : 0 < n) {active : List Resolved} {w : Walk}
    (holds : Holds files root baseDir n active w) (deep : limit ≤ n + depth) :
    Meets (bring root depth t) w (fun node w' =>
      (growth files root t.origin).After (Holds files root baseDir n active) w t.node.refs w' ∧
      node = t.node.mapRefs (localForm files root w'.assigned t.origin)) fails := by
  induction depth generalizing t n active w with
  | zero =>
    obtain ⟨targets, many, sound⟩ := holds
    rw [bring]
    apply Meets.get_bind
    exact Meets.throw (blames.depth sound (by omega))
  | succ depth ih =>
    rw [bring]
    apply (growth files root t.origin).meets_mapRefsM ?_ w holds
    intro raw met w holds
    have inside : n = 0 → t.origin = ⟨none, baseDir⟩ ∧ t.node = root.document :=
      fun none => absurd none some.ne'
    apply meets_rewriteRef blames ?_ (.target reached brought) met inside holds (by omega)
    exact fun reached brought some holds deep => ih reached brought some holds deep

/-- What a merge does to its document, before the targets are added to it. -/
theorem meets_walk {r : Resolver} (consistent : Consistent files r)
    (blames : Blames files root baseDir limit fails) {depth : Nat} (deep : limit ≤ depth + 1) :
    Meets (root.document.mapRefsM (rewriteRef root (bring root depth) none baseDir))
      { resolver := r } (fun out w =>
        (∃ targets, Sound files root baseDir [] targets w) ∧
        (∀ raw ∈ root.document.refs, Settled files root w.assigned ⟨none, baseDir⟩ raw) ∧
        out = root.document.mapRefs (localForm files root w.assigned ⟨none, baseDir⟩)) fails := by
  have start : Holds files root baseDir 0 [] { resolver := r } :=
    ⟨[], by simp, Sound.start consistent⟩
  have each : ∀ raw ∈ root.document.refs, ∀ w, Holds files root baseDir 0 [] w →
      Meets (rewriteRef root (bring root depth) none baseDir raw) w (fun out w' =>
        (growth files root ⟨none, baseDir⟩).After (Holds files root baseDir 0 []) w [raw] w' ∧
        out = localForm files root w'.assigned ⟨none, baseDir⟩ raw) fails := by
    intro raw met w holds
    have shallow : limit ≤ 0 + depth + 1 := by omega
    apply meets_rewriteRef blames ?_ .document met (fun _ => ⟨rfl, rfl⟩) holds shallow
    exact fun reached brought some holds deep =>
      meets_bring blames depth reached brought some holds deep
  apply ((growth files root ⟨none, baseDir⟩).meets_mapRefsM each _ start).mono
  rintro out w ⟨⟨⟨targets, _, sound⟩, _, settled⟩, rfl⟩
  exact ⟨⟨targets, sound⟩, settled, rfl⟩

end Merge

end ApiGraph
