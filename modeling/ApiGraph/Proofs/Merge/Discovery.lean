import ApiGraph.Proofs.Effect.Traversal
import ApiGraph.Proofs.Merge.Meaning

/-! What a merge leaves alone, and in which order it brings targets in. Strings are read from the
top of the document down. A target is entered as soon as it is first met, before the next string is
read (`Discovers`); the order is determined by the files and the document (`Discovers.unique`). The
merged document is the document with other reference strings, and behind its definitions the nodes
of the targets in that order, with other reference strings as well (`merge_frame`). -/

namespace ApiGraph.Merge

open Resolver (Origin Consistent)

/-! The order of discovery. -/

/-- The targets that are met when some strings are read that stand at one place, behind those that
were met before. A target that the document has no definition for is entered at once. -/
inductive Discovers (files : FileTree) (root : Root) :
    Origin → List String → List Resolved → List Resolved → Prop
  | done {origin : Origin} {seen : List Resolved} : Discovers files root origin [] seen seen
  | stays {origin : Origin} {raw : String} {rest : List String} {seen last : List Resolved}
    {ref : Reference} (read : Reference.ofText raw = .ok ref) (stays : Stays origin raw)
    (later : Discovers files root origin rest seen last) :
    Discovers files root origin (raw :: rest) seen last
  | here {origin : Origin} {raw : String} {rest : List String} {seen last : List Resolved}
    {t : Resolved} (moves : ¬ Stays origin raw) (leads : meaning files root origin raw = .ok t)
    (here : t.isInScope = true) (later : Discovers files root origin rest seen last) :
    Discovers files root origin (raw :: rest) seen last
  | again {origin : Origin} {raw : String} {rest : List String} {seen last : List Resolved}
    {t : Resolved} (away : Away files root origin raw t)
    (met : t.canonical ∈ seen.map (·.canonical))
    (later : Discovers files root origin rest seen last) :
    Discovers files root origin (raw :: rest) seen last
  | authored {origin : Origin} {raw : String} {rest : List String} {seen last : List Resolved}
    {t : Resolved} (away : Away files root origin raw t)
    (new : t.canonical ∉ seen.map (·.canonical)) (authored : t.name ∈ root.authored)
    (later : Discovers files root origin rest (seen ++ [t]) last) :
    Discovers files root origin (raw :: rest) seen last
  | brought {origin : Origin} {raw : String} {rest : List String} {seen next last : List Resolved}
    {t : Resolved} (away : Away files root origin raw t)
    (new : t.canonical ∉ seen.map (·.canonical)) (brought : t.name ∉ root.authored)
    (inside : Discovers files root t.origin t.node.refs (seen ++ [t]) next)
    (later : Discovers files root origin rest next last) :
    Discovers files root origin (raw :: rest) seen last

/-- The targets that are brought in, of those that were met. -/
def news (root : Root) (met : List Resolved) : List Resolved :=
  met.filter fun t => t.name ∉ root.authored

variable {files : FileTree} {root : Root} {origin : Origin} {seen : List Resolved}

theorem Away.unique {raw : String} {t t' : Resolved} (away : Away files root origin raw t)
    (leads : meaning files root origin raw = .ok t') : t' = t :=
  Except.ok.inj (leads.symm.trans away.leads)

namespace Discovers

variable {raws : List String} {last : List Resolved}

/-- What was met before is not forgotten. -/
theorem extends_seen (h : Discovers files root origin raws seen last) : seen <+: last := by
  induction h with
  | done => exact List.prefix_refl _
  | stays _ _ _ later | here _ _ _ _ later | again _ _ _ later => exact later
  | authored _ _ _ _ later => exact (List.prefix_append _ _).trans later
  | brought _ _ _ _ _ inside later =>
    exact ((List.prefix_append _ _).trans inside).trans later

theorem append {more : List String} {end' : List Resolved}
    (h : Discovers files root origin raws seen last)
    (further : Discovers files root origin more last end') :
    Discovers files root origin (raws ++ more) seen end' := by
  induction h with
  | done => exact further
  | stays read stays _ ih => exact .stays read stays (ih further)
  | here moves leads here _ ih => exact .here moves leads here (ih further)
  | again away met _ ih => exact .again away met (ih further)
  | authored away new authored _ ih => exact .authored away new authored (ih further)
  | brought away new brought inside _ _ ih => exact .brought away new brought inside (ih further)

/-- Every string of a walk that has ended can be read. -/
theorem exists_ref (h : Discovers files root origin raws seen last) :
    ∀ raw ∈ raws, ∃ ref, Reference.ofText raw = .ok ref := by
  have readable : ∀ {origin raw t}, meaning files root origin raw = .ok t →
      ∃ ref, Reference.ofText raw = .ok ref := by
    intro origin raw t leads
    obtain ⟨ref, read, _⟩ := bind_eq_ok.mp leads
    exact ⟨ref, read⟩
  induction h with
  | done => simp
  | stays read _ _ ih => exact List.forall_mem_cons.mpr ⟨⟨_, read⟩, ih⟩
  | here _ leads _ _ ih => exact List.forall_mem_cons.mpr ⟨readable leads, ih⟩
  | again away _ _ ih | authored away _ _ _ ih | brought away _ _ _ _ _ ih =>
    exact List.forall_mem_cons.mpr ⟨readable away.leads, ih⟩

/-- There is one order of discovery. -/
theorem unique {last' : List Resolved} (h : Discovers files root origin raws seen last)
    (h' : Discovers files root origin raws seen last') : last' = last := by
  -- Whether a string stays, where it leads, and whether its target was met or has a definition tell
  -- the constructors apart, so that the second run takes the same one as the first.
  induction h generalizing last' with
  | done =>
    cases h' with
    | done => rfl
  | stays _ stays _ ih =>
    cases h' with
    | stays _ _ later => exact ih later
    | here moves => exact absurd stays moves
    | again away | authored away | brought away => exact absurd stays away.moves
  | here moves leads here _ ih =>
    cases h' with
    | stays _ stays => exact absurd stays moves
    | here _ _ _ later => exact ih later
    | again away | authored away | brought away =>
      obtain rfl := away.unique leads
      exact absurd here (by simp [away.away])
  | again away met _ ih =>
    cases h' with
    | stays _ stays => exact absurd stays away.moves
    | here _ leads here =>
      obtain rfl := away.unique leads
      exact absurd here (by simp [away.away])
    | again _ _ later => exact ih later
    | authored away' new | brought away' new =>
      obtain rfl := away.unique away'.leads
      exact absurd met new
  | authored away new authored _ ih =>
    cases h' with
    | stays _ stays => exact absurd stays away.moves
    | here _ leads here =>
      obtain rfl := away.unique leads
      exact absurd here (by simp [away.away])
    | again away' met =>
      obtain rfl := away.unique away'.leads
      exact absurd met new
    | authored away' _ _ later =>
      obtain rfl := away.unique away'.leads
      exact ih later
    | brought away' _ brought =>
      obtain rfl := away.unique away'.leads
      exact absurd authored brought
  | brought away new brought _ _ inside later =>
    cases h' with
    | stays _ stays => exact absurd stays away.moves
    | here _ leads here =>
      obtain rfl := away.unique leads
      exact absurd here (by simp [away.away])
    | again away' met =>
      obtain rfl := away.unique away'.leads
      exact absurd met new
    | authored away' _ authored =>
      obtain rfl := away.unique away'.leads
      exact absurd authored brought
    | brought away' _ _ inside' later' =>
      obtain rfl := away.unique away'.leads
      obtain rfl := inside inside'
      exact later later'

end Discovers

/-! What a walk keeps of the targets it has met. -/

/-- A walk has names for the targets that were met, and the nodes of those that are brought in,
except for the ones that are open. -/
structure Tracks (files : FileTree) (root : Root) (active seen : List Resolved) (w : Walk) :
    Prop where
  consistent : Consistent files w.resolver
  assigned : w.assigned = seen.map fun t => (t.canonical, t.name)
  owners : w.owners = (news root seen).map fun t => (t.name, t.canonical)
  names : Table.keys w.inlined = (news root seen).map (·.name)
  unique : ((news root seen).map (·.name)).Nodup
  finished : ∀ t ∈ news root seen, t ∈ active ∨
    (w.inlined.get? t.name).map Json.eraseRefs = some t.node.eraseRefs

theorem news_append_authored {t : Resolved} (authored : t.name ∈ root.authored) :
    news root (seen ++ [t]) = news root seen := by
  simp [news, authored]

theorem news_append_brought {t : Resolved} (brought : t.name ∉ root.authored) :
    news root (seen ++ [t]) = news root seen ++ [t] := by
  simp [news, brought]

namespace Tracks

variable {active : List Resolved} {w : Walk}

theorem start {r : Resolver} (consistent : Consistent files r) :
    Tracks files root [] [] { resolver := r } where
  consistent
  assigned := rfl
  owners := rfl
  names := rfl
  unique := by simp [news]
  finished := by simp [news]

theorem withResolver (h : Tracks files root active seen w) {r : Resolver}
    (consistent : Consistent files r) : Tracks files root active seen { w with resolver := r } :=
  { h with consistent }

theorem unnamed_iff (h : Tracks files root active seen w) {canonical : String} :
    w.assigned.get? canonical = none ↔ canonical ∉ seen.map (·.canonical) := by
  rw [Table.get?_eq_none_iff, h.assigned, Table.keys, List.map_map]
  rfl

/-- The name of a target that has been met. -/
theorem insert_assigned (h : Tracks files root active seen w) {t : Resolved}
    (new : t.canonical ∉ seen.map (·.canonical)) :
    Table.insert w.assigned t.canonical t.name =
      (seen ++ [t]).map fun t => (t.canonical, t.name) := by
  have absent := Table.get?_eq_none_iff.mp (h.unnamed_iff.mpr new)
  rw [Table.insert_of_not_mem absent, h.assigned, List.map_append]
  rfl

/-- A target with the name of a definition is met. -/
theorem assign (h : Tracks files root active seen w) {t : Resolved}
    (new : t.canonical ∉ seen.map (·.canonical)) (authored : t.name ∈ root.authored) :
    Tracks files root active (seen ++ [t])
      { w with assigned := Table.insert w.assigned t.canonical t.name } where
  consistent := h.consistent
  assigned := h.insert_assigned new
  owners := by rw [news_append_authored authored, h.owners]
  names := by rw [news_append_authored authored, h.names]
  unique := by rw [news_append_authored authored]; exact h.unique
  finished := by rw [news_append_authored authored]; exact h.finished

/-- A target that is to be brought in is met, and open from then on. -/
theorem reserve (h : Tracks files root active seen w) {t : Resolved}
    (new : t.canonical ∉ seen.map (·.canonical)) (brought : t.name ∉ root.authored)
    (free : w.owners.get? t.name = none) :
    Tracks files root (t :: active) (seen ++ [t]) (w.reserve t.name t.canonical) := by
  have absentOwner := Table.get?_eq_none_iff.mp free
  have absent : t.name ∉ (news root seen).map (·.name) := by
    rw [h.owners] at absentOwner
    simpa [Table.keys] using absentOwner
  have absentKey : t.name ∉ Table.keys w.inlined := by rwa [h.names]
  constructor
  case consistent => exact h.consistent
  case assigned => exact h.insert_assigned new
  case owners =>
    simp only [Walk.reserve]
    rw [news_append_brought brought, Table.insert_of_not_mem absentOwner, h.owners, List.map_append]
    rfl
  case names =>
    rw [news_append_brought brought, Walk.reserve, Table.keys_insert_of_not_mem absentKey, h.names,
      List.map_append]
    rfl
  case unique =>
    rw [news_append_brought brought, List.map_append, List.nodup_append]
    refine ⟨h.unique, by simp, ?_⟩
    rintro name member other single rfl
    rw [List.map_singleton, List.mem_singleton] at single
    exact absent (single ▸ member)
  case finished =>
    rw [news_append_brought brought]
    intro s member
    rcases List.mem_append.mp member with old | single
    · rcases h.finished s old with isActive | finished
      · exact Or.inl (List.mem_cons_of_mem _ isActive)
      · have other : t.name ≠ s.name := by
          intro same
          exact absent (same ▸ List.mem_map.mpr ⟨s, old, rfl⟩)
        refine Or.inr ?_
        simp only [Walk.reserve]
        rw [Table.get?_insert_ne other, finished]
    · rw [List.mem_singleton.mp single]
      simp

/-- An open target is closed when its node is there. -/
theorem finish {t : Resolved} (h : Tracks files root (t :: active) seen w)
    (member : t ∈ news root seen) {node : Json} (same : node.eraseRefs = t.node.eraseRefs) :
    Tracks files root active seen
      { w with inlined := Table.insert w.inlined t.name node } := by
  refine { h with names := ?_, finished := ?_ }
  · have present : t.name ∈ Table.keys w.inlined := by
      rw [h.names]
      exact List.mem_map.mpr ⟨t, member, rfl⟩
    simp only
    rw [Table.keys_insert_of_mem present, h.names]
  · intro s place
    by_cases isTarget : s = t
    · subst s
      exact Or.inr (by simp [same])
    · rcases h.finished s place with isActive | finished
      · exact Or.inl (by simpa [isTarget] using isActive)
      · have other : t.name ≠ s.name := by
          intro clash
          exact isTarget (List.inj_on_of_nodup_map h.unique place member clash.symm)
        refine Or.inr ?_
        simp only
        rw [Table.get?_insert_ne other, finished]

/-- When no target is open, the nodes that were brought in are those of the targets. -/
theorem inlined_eq (h : Tracks files root [] seen w) :
    w.inlined.map (fun e => (e.1, e.2.eraseRefs)) =
      (news root seen).map fun t => (t.name, t.node.eraseRefs) := by
  have keys : Table.keys ((news root seen).map fun t => (t.name, t.node.eraseRefs)) =
      (news root seen).map (·.name) := by
    simp [Table.keys]
  apply Table.eq_of_keys
  · rw [Table.keys_map fun _ j => Json.eraseRefs j, h.names, keys]
  · rw [keys]
    exact h.unique
  · intro entry member
    obtain ⟨t, place, rfl⟩ := List.mem_map.mp member
    rcases h.finished t place with isActive | finished
    · cases isActive
    · rw [Table.get?_map fun _ j => Json.eraseRefs j]
      exact finished

end Tracks

/-! The run. -/

/-- What bringing a target in has to do: give its node back with other reference strings, and meet
the targets that it leads to. -/
def Discovering (files : FileTree) (root : Root) (bring : Resolved → WalkM Json) : Prop :=
  ∀ {t active seen w}, Tracks files root (t :: active) seen w → Meets (bring t) w (fun node w' =>
    node.eraseRefs = t.node.eraseRefs ∧ ∃ last,
      Discovers files root t.origin t.node.refs seen last ∧
      Tracks files root (t :: active) last w') fun _ => True

/-- One string is read: its target is met, if it is new. -/
theorem meets_rewriteRef_discovers {bring : Resolved → WalkM Json}
    (brings : Discovering files root bring) {raw : String} {active : List Resolved} {w : Walk}
    (tracks : Tracks files root active seen w) :
    Meets (rewriteRef root bring origin.file origin.baseDir raw) w (fun _ w' =>
      ∃ last, Discovers files root origin [raw] seen last ∧ Tracks files root active last w')
      fun _ => True := by
  apply meets_rewriteRef_of tracks.consistent
  constructor
  case unread => exact fun _ _ => trivial
  case lost => exact fun _ _ _ => trivial
  case collision => exact fun _ _ _ _ _ _ => trivial
  case shape => exact fun _ _ _ _ => trivial
  case stays => exact fun ref read stays => ⟨seen, .stays read stays .done, tracks⟩
  case here =>
    intro t r moves leads here consistent
    exact ⟨seen, .here moves leads here .done, tracks.withResolver consistent⟩
  case again =>
    intro t r name away consistent named
    have met : t.canonical ∈ seen.map (·.canonical) := by
      by_contra new
      rw [tracks.unnamed_iff.mpr new] at named
      cases named
    exact ⟨seen, .again away met .done, tracks.withResolver consistent⟩
  case authored =>
    intro t r away consistent unnamed authored
    have new := tracks.unnamed_iff.mp unnamed
    exact ⟨seen ++ [t], .authored away new authored .done,
      (tracks.withResolver consistent).assign new authored⟩
  case brought =>
    intro t r away consistent unnamed brought free shape
    have new := tracks.unnamed_iff.mp unnamed
    apply (brings ((tracks.withResolver consistent).reserve new brought free)).mono
    rintro node w' ⟨same, next, inside, tracks'⟩
    refine ⟨next, .brought away new brought inside .done, tracks'.finish ?_ same⟩
    -- The target was entered before its own strings were read, and is not forgotten meanwhile.
    have met : t ∈ next := inside.extends_seen.subset (by simp)
    exact List.mem_filter.mpr ⟨met, by simpa using brought⟩

/-- Strings are read one after the other. -/
theorem meets_inOrder_discovers {bring : Resolved → WalkM Json}
    (brings : Discovering files root bring) {raws : List String} {active : List Resolved} {w : Walk}
    (tracks : Tracks files root active seen w) (j : Json) :
    Meets (inOrder (rewriteRef root bring origin.file origin.baseDir) raws (pure j)) w
      (fun out w' => out = j ∧ ∃ last, Discovers files root origin raws seen last ∧
        Tracks files root active last w') fun _ => True := by
  induction raws generalizing seen w with
  | nil => exact Meets.pure ⟨rfl, seen, .done, tracks⟩
  | cons raw rest ih =>
    rw [inOrder_cons]
    apply Meets.bind
    apply (meets_rewriteRef_discovers brings tracks).mono
    rintro _ w' ⟨next, first, tracks'⟩
    apply (ih tracks').mono
    rintro out w'' ⟨rfl, last, later, tracks''⟩
    exact ⟨rfl, last, first.append later, tracks''⟩

theorem discovering_bring (depth : Nat) : Discovering files root (bring root depth) := by
  induction depth with
  | zero =>
    intro t active seen w _
    rw [bring]
    apply Meets.get_bind
    exact Meets.throw trivial
  | succ depth ih =>
    intro t active seen w tracks
    rw [bring]
    have strings := @meets_inOrder_discovers files root t.origin seen (bring root depth) ih
      t.node.refs (t :: active) w tracks t.node.eraseRefs
    exact Meets.mapRefsM strings

/-! The merged document. -/

/-- A document with definitions added behind its own. If there are any, the table of definitions is
made where it is missing. -/
inductive Extended (document : Json) (added : Table Json) : Json → Prop
  | same (nothing : added = []) : Extended document added document
  | behind {top components schemas : Table Json} (something : added ≠ [])
    (layout : Layout document top components schemas) :
    Extended document added (relaid top components (schemas ++ added))

theorem extended_of_addDefinitions {document out : Json} {added : Table Json}
    (h : addDefinitions document added = .ok out) (unique : (Table.keys added).Nodup)
    (fresh : ∀ key ∈ Table.keys added, key ∉ Table.keys (definitionsOf document)) :
    Extended document added out := by
  rcases addDefinitions_eq_ok h with
    ⟨nothing, rfl⟩ | ⟨something, top, components, schemas, layout, rfl⟩
  · exact .same nothing
  · rw [definitionsOf_of_layout layout] at fresh
    rw [Table.addAll_of_disjoint unique fresh]
    exact .behind something layout

/-- Documents that differ in reference strings alone have definitions of the same names. -/
theorem keys_definitionsOf_eq {document other : Json}
    (same : document.eraseRefs = other.eraseRefs) :
    Table.keys (definitionsOf document) = Table.keys (definitionsOf other) := by
  have law : ∀ j : Json, Table.keys (definitionsOf j.eraseRefs) = Table.keys (definitionsOf j) := by
    intro j
    rw [Json.eraseRefs, definitionsOf_mapRefs, Json.keys_mapEntries]
  rw [← law document, ← law other, same]

variable {document : Json} {file : Option Path} {baseDir : Path} {m : Merged}

/-- What a walk over a document comes to: the document with other reference strings, and the nodes
of the targets that were met and are new. -/
structure Found (files : FileTree) (root : Root) (baseDir : Path) (rewritten : Json)
    (met : List Resolved) (inlined : Table Json) : Prop where
  same : rewritten.eraseRefs = root.document.eraseRefs
  discovers : Discovers files root ⟨none, baseDir⟩ root.document.refs [] met
  inlined_eq : inlined.map (fun e => (e.1, e.2.eraseRefs)) =
    (news root met).map fun t => (t.name, t.node.eraseRefs)
  unique : ((news root met).map (·.name)).Nodup

theorem Found.keys_eq {rewritten : Json} {met : List Resolved} {inlined : Table Json}
    (h : Found files root baseDir rewritten met inlined) :
    Table.keys inlined = (news root met).map (·.name) := by
  have keys := congrArg Table.keys h.inlined_eq
  rw [Table.keys_map fun _ j => Json.eraseRefs j] at keys
  rw [keys, Table.keys, List.map_map]
  rfl

theorem found_of_ok {r : Resolver} (consistent : Consistent files r)
    (merged : ((Merge.document document file baseDir).run.run r).1 = .ok m) :
    ∃ rewritten met, Found files (Root.of document file) baseDir rewritten met m.inlined ∧
      addDefinitions rewritten m.inlined = .ok m.document := by
  have law : Meets (Merge.document document file baseDir) r (fun m _ => ∃ rewritten met,
      Found files (Root.of document file) baseDir rewritten met m.inlined ∧
        addDefinitions rewritten m.inlined = .ok m.document) fun _ => True := by
    apply meets_document_of_walk fun _ => trivial
    intro _
    have strings := @meets_inOrder_discovers files (Root.of document file) ⟨none, baseDir⟩ [] _
      (discovering_bring (depthLimit (Root.of document file) r)) document.refs []
      { resolver := r } (Tracks.start consistent) document.eraseRefs
    apply (Meets.mapRefsM strings).mono
    rintro rewritten w ⟨same, met, discovers, tracks⟩
    refine ⟨fun _ _ => trivial, fun made added => ?_⟩
    exact ⟨rewritten, met, ⟨same, discovers, tracks.inlined_eq, tracks.unique⟩, added⟩
  obtain ⟨_, found⟩ := law.of_ok merged
  exact found

/-- A merge that succeeds changes reference strings alone, and appends the nodes of the targets that
it has met and the document has no definitions for: behind the definitions of the document, in the
order of discovery, with other reference strings, and just as they are recorded. -/
theorem merge_frame {r : Resolver} (consistent : Consistent files r)
    (merged : ((Merge.document document file baseDir).run.run r).1 = .ok m) :
    ∃ rewritten met, rewritten.eraseRefs = document.eraseRefs ∧
      Discovers files (Root.of document file) ⟨none, baseDir⟩ document.refs [] met ∧
      m.inlined.map (fun e => (e.1, e.2.eraseRefs)) =
        (news (Root.of document file) met).map (fun t => (t.name, t.node.eraseRefs)) ∧
      Extended rewritten m.inlined m.document ∧
      definitionsOf m.document = definitionsOf rewritten ++ m.inlined ∧
      Table.keys (definitionsOf rewritten) = Table.keys (definitionsOf document) ∧
      (Table.keys m.inlined).Nodup ∧
      ∀ e ∈ m.inlined, e.1 ∉ Table.keys (definitionsOf document) ∧
        (definitionsOf m.document).get? e.1 = some e.2 := by
  obtain ⟨rewritten, met, found, added⟩ := found_of_ok consistent merged
  have keys : Table.keys (definitionsOf rewritten) = Table.keys (definitionsOf document) :=
    keys_definitionsOf_eq found.same
  have nodup : (Table.keys m.inlined).Nodup := found.keys_eq ▸ found.unique
  have fresh : ∀ key ∈ Table.keys m.inlined, key ∉ Table.keys (definitionsOf document) := by
    intro key member
    rw [found.keys_eq] at member
    obtain ⟨t, isNew, rfl⟩ := List.mem_map.mp member
    rw [← authored_eq document file]
    simpa using (List.mem_filter.mp isNew).2
  have definitions := definitionsOf_addDefinitions added nodup (keys ▸ fresh)
  have extended := extended_of_addDefinitions added nodup (keys ▸ fresh)
  refine ⟨rewritten, met, found.same, found.discovers, found.inlined_eq, extended, definitions,
    keys, nodup, ?_⟩
  rintro ⟨key, node⟩ member
  have new := fresh key (List.mem_map_of_mem member)
  have absent : (definitionsOf rewritten).get? key = none := by
    rw [Table.get?_eq_none_iff, keys]
    exact new
  refine ⟨new, ?_⟩
  rw [definitions, Table.get?_append, absent]
  exact (Table.get?_eq_some_iff nodup).mpr member

/-- The owner of a pet keeps everything but its reference, and gets the pet as its one
definition. -/
theorem petOwner_frame : ∃ m rewritten met, result petFiles petOwner none ⟨"/"⟩ = .ok m ∧
    rewritten.eraseRefs = petOwner.eraseRefs ∧
    Discovers petFiles (Root.of petOwner none) ⟨none, ⟨"/"⟩⟩ petOwner.refs [] met ∧
    (news (Root.of petOwner none) met).map (·.name) = ["Pet"] ∧
    Extended rewritten m.inlined m.document ∧ definitionsOf m.document = m.inlined := by
  obtain ⟨m, merged, shape⟩ := exists_ok_of_map petOwner_merges
  obtain ⟨rewritten, met, same, discovers, inlined, extended, definitions, keys, _, _⟩ :=
    merge_frame (Resolver.consistent_fresh petFiles) merged
  have names := congrArg Table.keys inlined
  rw [Table.keys_map fun _ j => Json.eraseRefs j, (Prod.mk.inj shape).2] at names
  have nothing : definitionsOf rewritten = [] := by
    have none : definitionsOf petOwner = [] := rfl
    rw [none] at keys
    simpa [Table.keys] using keys
  refine ⟨m, rewritten, met, merged, same, discovers, ?_, extended, ?_⟩
  · rw [names, Table.keys, List.map_map]
    rfl
  · rw [definitions, nothing, List.nil_append]

end ApiGraph.Merge
