import ApiGraph.Proofs.Merge.Account

/-! Which references of a merged document are local. Every string that a walk meets is in local
form afterwards, so the only other ones are those below a key `$ref` that holds no string, which a
walk does not enter. These stay as they are, in the document and in every target
(`local_iff_hidden_local`). -/

namespace ApiGraph

namespace Merge

variable {files : FileTree} {root : Root} {names : Table String}

/-- The three forms that a reference string can have for good: its own, that of a place in the
document, and that of a definition. -/
theorem Settled.localForm_cases {origin : Resolver.Origin} {raw : String}
    (settled : Settled files root names origin raw) :
    (Stays origin raw ∧ localForm files root names origin raw = raw) ∨
    (∃ t, ¬ Stays origin raw ∧ meaning files root origin raw = .ok t ∧ t.isInScope = true ∧
      localForm files root names origin raw = "#" ++ t.fragment.text) ∨
    ∃ t name, Away files root origin raw t ∧
      localForm files root names origin raw = definitionRef name := by
  by_cases stays : Stays origin raw
  · exact Or.inl ⟨stays, by rw [localForm, if_pos stays]⟩
  · obtain ⟨t, leads, place⟩ := settled.resolve_left stays
    by_cases here : t.isInScope = true
    · exact Or.inr (Or.inl ⟨t, stays, leads, here, by simp [localForm, stays, leads, here]⟩)
    · obtain ⟨name, named⟩ := place.resolve_left here
      have away : t.isInScope = false := by simpa using here
      have form := (form_of_named stays leads away named).2
      exact Or.inr (Or.inr ⟨t, name, ⟨stays, leads, away⟩, form⟩)

/-- The local form of a reference string is local. -/
theorem isLocalText_localForm {origin : Resolver.Origin} {raw : String}
    (settled : Settled files root names origin raw) :
    Reference.IsLocalText (localForm files root names origin raw) := by
  rcases settled.localForm_cases with ⟨stays, same⟩ | ⟨t, _, _, _, form⟩ | ⟨t, name, _, form⟩
  · rw [same]
    exact stays.2
  · rw [form]
    exact Reference.isLocalText_hash _
  · rw [form, definitionRef_eq]
    exact Reference.isLocalText_hash _

variable {baseDir : Path} {targets : List Resolved} {m : Merged}

/-- The reference strings of a merged document that are not local are those that a walk does not
enter, in the document and in the targets that were brought in. -/
theorem Account.mem_allRefs {document : Json} {file : Option Path}
    (account : Account files (Root.of document file) baseDir targets names m) {raw : String}
    (remote : ¬ Reference.IsLocalText raw) : raw ∈ m.document.allRefs ↔
      raw ∈ document.hiddenRefs ∨ ∃ t ∈ targets, raw ∈ t.node.hiddenRefs := by
  have entry : ∀ {origin : Resolver.Origin} {node : Json}, (∀ raw ∈ node.refs,
      Settled files (Root.of document file) names origin raw) →
      (raw ∈ (node.mapRefs (localForm files (Root.of document file) names origin)).allRefs ↔
        raw ∈ node.hiddenRefs) := by
    intro origin node settled
    rw [Json.mem_allRefs, Json.refs_mapRefs, Json.hiddenRefs_mapRefs]
    apply or_iff_right
    rw [List.mem_map]
    rintro ⟨before, met, rfl⟩
    exact remote (isLocalText_localForm (settled before met))
  rw [mem_addDefinitions Json.gathers_allRefs account.document account.objects account.keys_nodup
    (account.fresh _)]
  apply or_congr (entry account.settledRoot)
  rw [account.inlined]
  simp only [Option.isSome_none, Bool.false_eq_true, and_false, not_false_eq_true, true_and,
    List.mem_map, exists_exists_and_eq_and]
  apply exists_congr
  intro t
  apply and_congr_right
  intro place
  exact entry (account.settledTargets t place)

/-- After a merge, every reference string is local exactly if those are that a walk does not enter:
the strings below a key `$ref` that holds no string, in the document and in the targets that were
brought in. No other string that is not local is left. -/
theorem local_iff_hidden_local {files : FileTree} {document : Json} {file : Option Path}
    {baseDir : Path} {m : Merged} (merged : result files document file baseDir = .ok m) :
    ∃ targets : List Resolved, Table.keys m.inlined = targets.map (·.name) ∧
      (∀ t ∈ targets, Reached files (Root.of document file) baseDir t) ∧
      (∀ raw, ¬ Reference.IsLocalText raw → (raw ∈ m.document.allRefs ↔
        raw ∈ document.hiddenRefs ∨ ∃ t ∈ targets, raw ∈ t.node.hiddenRefs)) ∧
      ((∀ raw ∈ m.document.allRefs, Reference.IsLocalText raw) ↔
        (∀ raw ∈ document.hiddenRefs, Reference.IsLocalText raw) ∧
        ∀ t ∈ targets, ∀ raw ∈ t.node.hiddenRefs, Reference.IsLocalText raw) := by
  obtain ⟨_, targets, names, account⟩ := account_of_ok merged
  have left := fun raw => @Account.mem_allRefs _ _ _ _ _ _ _ account raw
  refine ⟨targets, ?_, fun t place => (account.reached t place).1, left, ?_⟩
  · rw [account.inlined, Table.keys, List.map_map]
    rfl
  · constructor
    · intro all
      constructor
      · intro raw hidden
        by_contra remote
        exact remote (all raw ((left raw remote).mpr (Or.inl hidden)))
      · intro t place raw hidden
        by_contra remote
        exact remote (all raw ((left raw remote).mpr (Or.inr ⟨t, place, hidden⟩)))
    · rintro ⟨inRoot, inTargets⟩ raw member
      by_contra remote
      rcases (left raw remote).mp member with hidden | ⟨t, place, hidden⟩
      · exact remote (inRoot raw hidden)
      · exact remote (inTargets t place raw hidden)

/-- A file with one definition. -/
def petFiles : FileTree where
  entries := [(["pet.yaml"], .file "Pet:\n  type: object\n")]

/-- A document that refers to the file. -/
def petOwner : Json := .object [("pet", .object [("$ref", .string "pet.yaml#/Pet")])]

/-- A document with a map of names that has `$ref` as a name. -/
def petHolder : Json :=
  .object [("properties", .object [("$ref", .object [("$ref", .string "pet.yaml#/Pet")])])]

theorem petOwner_merges : (result petFiles petOwner none ⟨"/"⟩).toOption.map (fun m =>
      (m.document.refs, Table.keys m.inlined)) = some (["#/components/schemas/Pet"], ["Pet"]) := by
  decide +kernel

/-- The owner hides nothing, so only the pet could keep a reference that is not local. -/
theorem petOwner_local : ∃ m, result petFiles petOwner none ⟨"/"⟩ = .ok m ∧
    ∃ targets : List Resolved, targets.map (·.name) = ["Pet"] ∧
      ((∀ raw ∈ m.document.allRefs, Reference.IsLocalText raw) ↔
        ∀ t ∈ targets, ∀ raw ∈ t.node.hiddenRefs, Reference.IsLocalText raw) := by
  obtain ⟨m, merged, keys⟩ := exists_ok_of_map petOwner_merges
  obtain ⟨targets, names, _, _, isLocal⟩ := local_iff_hidden_local merged
  have nothing : petOwner.hiddenRefs = [] := rfl
  rw [nothing] at isLocal
  refine ⟨m, merged, targets, ?_, by simpa using isLocal⟩
  rw [← names]
  exact (Prod.mk.inj keys).2

/-- The reference below the name `$ref` is still not local after the merge. -/
theorem petHolder_not_local : ∃ m, result petFiles petHolder none ⟨"/"⟩ = .ok m ∧
    "pet.yaml#/Pet" ∈ m.document.allRefs ∧ ¬ Reference.IsLocalText "pet.yaml#/Pet" := by
  have run : (result petFiles petHolder none ⟨"/"⟩).toOption.map (fun m => m.document.allRefs) =
      some ["pet.yaml#/Pet"] := by
    decide +kernel
  obtain ⟨m, merged, refs⟩ := exists_ok_of_map run
  exact ⟨m, merged, by simp [refs], by decide⟩

end Merge

end ApiGraph
