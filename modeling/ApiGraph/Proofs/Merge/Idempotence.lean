import ApiGraph.Proofs.Document.Loaded
import ApiGraph.Proofs.Merge.Discovery

/-! Merging what was merged already. A merged document is at rest (`AtRest`): every reference
string that a walk meets in it is a hash alone, or can be read and is local. A second merge leaves
the local ones as they are, and refuses a hash alone, from whatever file and directory the document
is read (`run_again`). A hash alone is what a merge writes for a reference to the whole document. So
a second merge changes nothing exactly if the first one has met no such reference
(`merge_again_iff`). -/

namespace ApiGraph

namespace Merge

open Resolver (Origin Consistent)

/-! The second merge. -/

/-- A document of which a merge has nothing to bring in. -/
structure AtRest (document : Json) : Prop where
  isObject : document.isObject = true
  same : document.mapRefs id = document
  reads : ∀ raw ∈ document.refs, raw = "#" ∨
    ∃ fragment, Reference.ofText raw = .ok (.inFile fragment)

/-- A walk that changes nothing, and that ends if none of the strings it meets is a hash alone. -/
def standstill (σ : Type) : Growth σ where
  le := Eq
  settled _ raw := raw ≠ "#"
  form _ := id
  refl _ := rfl
  trans := Eq.trans
  keep _ h := h
  same _ _ := rfl

/-- A local string of the document is left alone, and a hash alone is refused. -/
theorem meets_rewriteRef_local {root : Root} {bring : Resolved → WalkM Json} {dir : Path}
    {raw : String} {w : Walk} (reads : raw = "#" ∨
      ∃ fragment, Reference.ofText raw = .ok (.inFile fragment)) :
    Meets (rewriteRef root bring none dir raw) w
      (fun out w' => (standstill Walk).After (fun _ => True) w [raw] w' ∧ out = raw)
      fun fault => raw = "#" ∧ fault = .badReference "#" .empty := by
  rw [rewriteRef]
  rcases reads with rfl | ⟨fragment, read⟩
  · apply Meets.lift_bind
    · rintro ref ⟨⟩
    · rintro fault ⟨⟩
      exact ⟨rfl, rfl⟩
  · have other : raw ≠ "#" := by
      rintro rfl
      cases read
    rw [read]
    exact Meets.pure ⟨.single trivial rfl other, rfl⟩

variable {files : FileTree} {document : Json} {file : Option Path} {baseDir : Path} {m : Merged}

theorem AtRest.meets_again (h : AtRest document) (again : Option Path) (dir : Path)
    (r : Resolver) : Meets (Merge.document document again dir) r
      (fun m _ => "#" ∉ document.refs ∧ m = ⟨document, again, []⟩)
      fun fault => "#" ∈ document.refs ∧ fault = .badReference "#" .empty := by
  apply meets_document_of_walk (by simp [h.isObject])
  intro _
  have each : ∀ raw ∈ document.refs, ∀ w, True → Meets (rewriteRef (Root.of document again)
      (bring (Root.of document again) (depthLimit (Root.of document again) r)) none dir raw) w
      (fun out w' => (standstill Walk).After (fun _ => True) w [raw] w' ∧
        out = (standstill Walk).form w' raw)
      fun fault => "#" ∈ document.refs ∧ fault = .badReference "#" .empty := by
    intro raw met w _
    apply (meets_rewriteRef_local (h.reads raw met)).imp fun _ _ => id
    rintro fault ⟨rfl, refused⟩
    exact ⟨met, refused⟩
  apply ((standstill Walk).meets_mapRefsM each _ trivial).mono
  rintro out w ⟨⟨_, rfl, other⟩, rfl⟩
  have same : document.mapRefs ((standstill Walk).form { resolver := r }) = document := h.same
  rw [same]
  constructor
  · rintro fault ⟨⟩
  · rintro made ⟨⟩
    exact ⟨fun hash => other "#" hash rfl, rfl⟩

/-- A second merge gives the document back and brings nothing in, or it refuses a hash alone. -/
theorem AtRest.run_again (h : AtRest document) (again : Option Path) (dir : Path)
    (r : Resolver) : ((Merge.document document again dir).run.run r).1 =
      if "#" ∈ document.refs then .error (.badReference "#" .empty)
      else .ok ⟨document, again, []⟩ := by
  have law := h.meets_again again dir r
  rw [Meets] at law
  split at law
  · rename_i m r' run
    rw [run, law.2, if_neg law.1]
  · rename_i fault r' run
    rw [run, law.2, if_pos law.1]

/-! The strings of a merged document. -/

theorem mapRefs_id_addDefinitions {document out : Json} {added : Table Json}
    (h : addDefinitions document added = .ok out) (objects : ∀ e ∈ added, e.2.isObject = true)
    (unique : (Table.keys added).Nodup)
    (fresh : ∀ key ∈ Table.keys added, key ∉ Table.keys (definitionsOf document))
    (same : document.mapRefs id = document) (sameAdded : ∀ e ∈ added, e.2.mapRefs id = e.2) :
    out.mapRefs id = out := by
  apply addDefinitions_relates h unique fresh (R := fun old new => old.mapRefs id = old →
    new.mapRefs id = new) ?_ ?_ ?_ same
  · exact fun _ => id
  · intro key other fields new grown same
    apply Json.mapRefs_id_insert other same
    apply grown
    cases place : Table.get? fields key with
    | none => rfl
    | some old =>
      have entry := Json.mapRefs_id_object_iff.mp same _ (Table.mem_of_get?_eq_some place)
      simpa [other] using entry
  · exact fun fields fresh same => Json.mapRefs_id_append objects fresh same sameAdded

variable {root : Root} {names : Table String} {targets : List Resolved}

/-- A string in the document or in a target that leads to the whole document. -/
def LeadsToRoot (files : FileTree) (root : Root) (origin : Origin) (raw : String) : Prop :=
  ∃ t, meaning files root origin raw = .ok t ∧ t.isInScope = true ∧ t.fragment = .document

theorem localForm_of_leadsToRoot {origin : Origin} {raw : String} (moves : ¬ Stays origin raw)
    (whole : LeadsToRoot files root origin raw) :
    localForm files root names origin raw = "#" := by
  obtain ⟨t, leads, here, whole⟩ := whole
  rw [localForm, if_neg moves, leads]
  simp only [here, ↓reduceIte, whole]
  rfl

/-- The local form of a string can be read, unless it leads to the whole document. -/
theorem Settled.reads {origin : Origin} {raw : String}
    (settled : Settled files root names origin raw)
    (readable : Stays origin raw → ∃ ref, Reference.ofText raw = .ok ref) :
    (¬ Stays origin raw ∧ LeadsToRoot files root origin raw) ∨
    ∃ fragment,
      Reference.ofText (localForm files root names origin raw) = .ok (.inFile fragment) := by
  rcases settled.localForm_cases with
    ⟨stays, same⟩ | ⟨t, moves, leads, here, form⟩ | ⟨t, name, _, form⟩
  · obtain ⟨ref, read⟩ := readable stays
    rw [same]
    cases ref with
    | inFile fragment => exact Or.inr ⟨fragment, read⟩
    | external => exact absurd stays.2 (Reference.not_isLocalText_of_external read)
  · by_cases whole : t.fragment = .document
    · exact Or.inl ⟨moves, t, leads, here, whole⟩
    · rw [form]
      exact Or.inr ⟨t.fragment, Reference.ofText_hash (landed_meaning leads).2.1 whole⟩
  · rw [form]
    exact Or.inr (exists_ofText_definitionRef name)

/-- The strings of the merged document that a walk meets, with what they were before. A target that
is brought in under the name `$ref` is not met again. -/
theorem Account.mem_refs (account : Account files (Root.of document file) baseDir targets names m)
    {raw : String} : raw ∈ m.document.refs ↔
      (∃ before ∈ document.refs,
        localForm files (Root.of document file) names ⟨none, baseDir⟩ before = raw) ∨
      ∃ t ∈ targets, t.name ≠ refKey ∧ ∃ before ∈ t.node.refs,
        localForm files (Root.of document file) names t.origin before = raw := by
  rw [mem_addDefinitions Json.gathers_refs account.document account.objects account.keys_nodup
    (account.fresh _), account.inlined]
  simp only [and_true, List.mem_map, exists_exists_and_eq_and, Json.refs_mapRefs]
  rfl

variable {r : Resolver}

/-- The strings of a merged document, as a second merge finds them. -/
theorem Account.reads (account : Account files (Root.of document file) baseDir targets names m)
    (readable : ∀ raw ∈ document.refs, ∃ ref, Reference.ofText raw = .ok ref) {raw : String}
    (met : raw ∈ m.document.refs) :
    (raw = "#" ∧ ∃ origin before, Rewritten document baseDir (targets.filter (·.name ≠ refKey))
      origin before ∧ LeadsToRoot files (Root.of document file) origin before) ∨
    ∃ fragment, Reference.ofText raw = .ok (.inFile fragment) := by
  rcases account.mem_refs.mp met with
    ⟨before, inRoot, rfl⟩ | ⟨t, brought, walked, before, inTarget, rfl⟩
  · apply ((account.settledRoot before inRoot).reads fun _ => readable before inRoot).imp_left
    rintro ⟨moves, whole⟩
    exact ⟨localForm_of_leadsToRoot moves whole, _, before, .inRoot inRoot moves, whole⟩
  · have moves := (account.reached t brought).1.not_stays before
    apply ((account.settledTargets t brought before inTarget).reads fun stays =>
      absurd stays moves).imp_left
    rintro ⟨_, whole⟩
    have kept : t ∈ targets.filter (·.name ≠ refKey) := by simp [brought, walked]
    exact ⟨localForm_of_leadsToRoot moves whole, _, before, .inTarget kept inTarget, whole⟩

theorem atRest_of_ok (consistent : Consistent files r)
    (merged : ((Merge.document document file baseDir).run.run r).1 = .ok m) :
    AtRest m.document := by
  obtain ⟨_, targets, names, account⟩ := account_of_run consistent merged
  obtain ⟨_, met, found, _⟩ := found_of_ok consistent merged
  constructor
  case isObject =>
    apply isObject_addDefinitions account.document
    rw [Json.isObject_mapRefs]
    exact account.isObject
  case same =>
    apply mapRefs_id_addDefinitions account.document account.objects account.keys_nodup
      (account.fresh _) (Json.mapRefs_id_mapRefs _ _)
    rw [account.inlined]
    intro e member
    obtain ⟨t, _, rfl⟩ := List.mem_map.mp member
    exact Json.mapRefs_id_mapRefs _ _
  case reads =>
    intro raw member
    exact (account.reads found.discovers.exists_ref member).imp_left And.left

/-- A merged document is merged again: if a hash alone is among its strings, that is refused, and
otherwise the document comes out as it is and nothing is brought in, whatever file and directory it
is said to be from. A hash alone is among them exactly if a reference that the first merge has
rewritten leads to the whole document. -/
theorem merge_again_iff (consistent : Consistent files r)
    (merged : ((Merge.document document file baseDir).run.run r).1 = .ok m) :
    ∃ targets names, Account files (Root.of document file) baseDir targets names m ∧
      (∀ again dir r', ((Merge.document m.document again dir).run.run r').1 =
        if "#" ∈ m.document.refs then .error (.badReference "#" .empty)
        else .ok ⟨m.document, again, []⟩) ∧
      ("#" ∈ m.document.refs ↔ ∃ origin raw,
        Rewritten document baseDir (targets.filter (·.name ≠ refKey)) origin raw ∧
        LeadsToRoot files (Root.of document file) origin raw) := by
  obtain ⟨_, targets, names, account⟩ := account_of_run consistent merged
  obtain ⟨_, met, found, _⟩ := found_of_ok consistent merged
  refine ⟨targets, names, account, (atRest_of_ok consistent merged).run_again, ?_⟩
  constructor
  · intro hash
    rcases account.reads found.discovers.exists_ref hash with ⟨_, whole⟩ | ⟨_, read⟩
    · exact whole
    · cases read
  · rintro ⟨origin, raw, rewritten, whole⟩
    rw [account.mem_refs]
    cases rewritten with
    | inRoot inRoot moves => exact Or.inl ⟨raw, inRoot, localForm_of_leadsToRoot moves whole⟩
    | inTarget kept inTarget =>
      obtain ⟨brought, walked⟩ := List.mem_filter.mp kept
      have moves := (account.reached _ brought).1.not_stays raw
      exact Or.inr ⟨_, brought, by simpa using walked, raw, inTarget,
        localForm_of_leadsToRoot moves whole⟩

/-- The owner of a pet is merged once and for all. -/
theorem petOwner_again : ∃ m, result petFiles petOwner none ⟨"/"⟩ = .ok m ∧
    ∀ again dir r, ((Merge.document m.document again dir).run.run r).1 =
      .ok ⟨m.document, again, []⟩ := by
  obtain ⟨m, merged, shape⟩ := exists_ok_of_map petOwner_merges
  obtain ⟨_, _, _, second, _⟩ := merge_again_iff (Resolver.consistent_fresh petFiles) merged
  have noHash : "#" ∉ m.document.refs := by
    rw [(Prod.mk.inj shape).1]
    decide
  refine ⟨m, merged, fun again dir r => ?_⟩
  rw [second, if_neg noHash]

/-- A file with a pet whose home is the file itself. -/
def homeFiles : FileTree where
  entries := [(["root.yaml"], .file "Pet:\n  home:\n    $ref: root.yaml\n")]

/-- The document of the file. -/
def home : Json :=
  .object [("Pet", .object [("home", .object [("$ref", .string "root.yaml")])])]

/-- The reference to the home is written as a hash alone, which no second merge reads. -/
theorem home_refused : homeFiles.load ⟨"/root.yaml"⟩ = .ok home ∧
    ∃ m, result homeFiles home (some ⟨"/root.yaml"⟩) ⟨"/"⟩ = .ok m ∧
      ∀ again dir r, ((Merge.document m.document again dir).run.run r).1 =
        .error (.badReference "#" .empty) := by
  have run : (result homeFiles home (some ⟨"/root.yaml"⟩) ⟨"/"⟩).toOption.map (·.document.refs) =
      some ["#"] := by
    decide +kernel
  obtain ⟨m, merged, refs⟩ := exists_ok_of_map run
  have second := (atRest_of_ok (Resolver.consistent_fresh homeFiles) merged).run_again
  refine ⟨by decide +kernel, m, merged, fun again dir r => ?_⟩
  rw [second, if_pos (by simp [refs])]

end Merge

end ApiGraph
