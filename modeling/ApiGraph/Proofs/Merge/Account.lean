import ApiGraph.Proofs.Merge.Walk

/-! What a merge that succeeds has done. `Account` says what the merged document is made of: the
document with its reference strings in local form, and behind its own definitions the targets, each
under its name and with its strings in local form (`account_of_ok`). A merge succeeds if none of
the reasons to fail is there (`exists_ok_of_blames`). -/

namespace ApiGraph.Merge

open Resolver (Origin Consistent)

/-! The table of definitions. -/

/-- The parts of a document on the way to its definitions; what is missing counts as empty. -/
structure Layout (document : Json) (top components schemas : Table Json) : Prop where
  isTop : document = .object top
  isComponents : ((Table.get? top "components").getD (.object [])).fields? = some components
  isSchemas : ((Table.get? components "schemas").getD (.object [])).fields? = some schemas

/-- A document with another table of definitions. -/
def relaid (top components schemas : Table Json) : Json :=
  .object (Table.insert top "components"
    (.object (Table.insert components "schemas" (.object schemas))))

theorem modifyDefinitions_eq_ok {document out : Json} {change : Table Json → Table Json}
    (h : modifyDefinitions document change = .ok out) : ∃ top components schemas,
    Layout document top components schemas ∧ out = relaid top components (change schemas) := by
  rw [modifyDefinitions] at h
  split at h
  · rename_i top isTop
    split at h
    · rename_i components isComponents
      split at h
      · rename_i schemas isSchemas
        cases h
        refine ⟨top, components, schemas, ⟨?_, isComponents, isSchemas⟩, rfl⟩
        cases document <;> simp_all [Json.fields?]
      · cases h
    · cases h
  · cases h

theorem modifyDefinitions_of_layout {document : Json} {top components schemas : Table Json}
    (h : Layout document top components schemas) (change : Table Json → Table Json) :
    modifyDefinitions document change = .ok (relaid top components (change schemas)) := by
  obtain ⟨rfl, isComponents, isSchemas⟩ := h
  have isTop : (Json.object top).fields? = some top := rfl
  rw [modifyDefinitions, isTop]
  simp only [isComponents, isSchemas]
  rfl

/-- The definitions of a document itself. -/
def definitionsOf (document : Json) : Table Json :=
  ((document.pointer? definitionsPointer.toList).bind Json.fields?).getD []

/-- A table that is not empty stands in the document. -/
theorem pointer?_of_definitionsOf {document : Json} (filled : definitionsOf document ≠ []) :
    document.pointer? definitionsPointer.toList = some (.object (definitionsOf document)) := by
  rw [definitionsOf] at filled ⊢
  cases found : document.pointer? definitionsPointer.toList with
  | none => simp [found] at filled
  | some j =>
    cases j with
    | object fields => rfl
    | _ => simp [found, Json.fields?] at filled

theorem authored_eq (document : Json) (file : Option Path) :
    (Root.of document file).authored = Table.keys (definitionsOf document) := by
  simp only [Root.of, definitionsOf]
  cases (document.pointer? definitionsPointer.toList).bind Json.fields? <;> rfl

theorem pointer?_definitions (document : Json) :
    document.pointer? definitionsPointer.toList =
      document.follow ["components".toList, "schemas".toList] := by
  have lead : definitionsPointer.toList = '/' :: "components/schemas".toList := rfl
  have pieces : Text.split '/' "components/schemas".toList =
      ["components".toList, "schemas".toList] := by decide
  rw [lead, Json.pointer?_slash, pieces]

theorem eq_object_of_fields? {j : Json} {fields : Table Json} (h : j.fields? = some fields) :
    j = .object fields := by
  cases j <;> cases h
  rfl

theorem definitionsOf_of_layout {document : Json} {top components schemas : Table Json}
    (h : Layout document top components schemas) : definitionsOf document = schemas := by
  obtain ⟨rfl, isComponents, isSchemas⟩ := h
  have components_key : String.ofList (Json.Pointer.unescape "components".toList) = "components" :=
    rfl
  have schemas_key : String.ofList (Json.Pointer.unescape "schemas".toList) = "schemas" := rfl
  rw [definitionsOf, pointer?_definitions, Json.follow_cons, Json.step_object, components_key]
  cases inTop : Table.get? top "components" with
  | none =>
    rw [inTop] at isComponents
    cases isComponents
    cases isSchemas
    rfl
  | some j =>
    rw [inTop] at isComponents
    obtain rfl := eq_object_of_fields? isComponents
    rw [Option.bind_some, Json.follow_cons, Json.step_object, schemas_key]
    cases inComponents : Table.get? components "schemas" with
    | none =>
      rw [inComponents] at isSchemas
      cases isSchemas
      rfl
    | some j =>
      rw [inComponents] at isSchemas
      obtain rfl := eq_object_of_fields? isSchemas
      rfl

theorem definitionsOf_mapRefs (f : String → String) (document : Json) :
    definitionsOf (document.mapRefs f) = Json.mapEntries f (definitionsOf document) := by
  rw [definitionsOf, definitionsOf, pointer?_definitions, pointer?_definitions,
    Json.follow_mapRefs_of_open f document (by decide)]
  cases document.follow ["components".toList, "schemas".toList] with
  | none => rfl
  | some j =>
    cases j with
    | object fields =>
      rw [Option.map_some, Json.mapRefs_object]
      rfl
    | _ => rfl

/-- Definitions are added behind those that are there, if there are any to add. -/
theorem addDefinitions_eq_ok {document out : Json} {added : Table Json}
    (h : addDefinitions document added = .ok out) : added = [] ∧ out = document ∨
    added ≠ [] ∧ ∃ top components schemas, Layout document top components schemas ∧
      out = relaid top components (Table.addAll schemas added) := by
  rw [addDefinitions] at h
  split at h
  · rename_i nothing
    cases h
    exact Or.inl ⟨List.isEmpty_iff.mp nothing, rfl⟩
  · rename_i something
    exact Or.inr ⟨fun nothing => something (List.isEmpty_iff.mpr nothing),
      modifyDefinitions_eq_ok h⟩

/-- A relation holds between a document and the same document with definitions added if it lifts
from an entry to its object, and holds for the table of definitions itself. -/
theorem addDefinitions_relates {R : Json → Json → Prop} {document out : Json} {added : Table Json}
    (h : addDefinitions document added = .ok out) (unique : (Table.keys added).Nodup)
    (fresh : ∀ key ∈ Table.keys added, key ∉ Table.keys (definitionsOf document))
    (same : added = [] → R document document)
    (insert : ∀ key, key ≠ refKey → ∀ fields new,
      R ((Table.get? fields key).getD (.object [])) new →
      R (.object fields) (.object (Table.insert fields key new)))
    (append : ∀ fields, (∀ key ∈ Table.keys added, key ∉ Table.keys fields) →
      R (.object fields) (.object (fields ++ added))) : R document out := by
  rcases addDefinitions_eq_ok h with ⟨rfl, rfl⟩ | ⟨_, top, components, schemas, layout, rfl⟩
  · exact same rfl
  · rw [definitionsOf_of_layout layout] at fresh
    rw [Table.addAll_of_disjoint unique fresh, relaid, layout.isTop]
    apply insert _ (by decide)
    rw [eq_object_of_fields? layout.isComponents]
    apply insert _ (by decide)
    rw [eq_object_of_fields? layout.isSchemas]
    exact append schemas fresh

/-- Definitions that are added to a document bring their own reference strings. -/
theorem mem_addDefinitions {skipped : Option String → Bool} {strings : Json → List String}
    (law : Json.Gathers skipped strings) {document out : Json} {added : Table Json}
    (h : addDefinitions document added = .ok out)
    (objects : ∀ e ∈ added, e.2.isObject = true) (unique : (Table.keys added).Nodup)
    (fresh : ∀ key ∈ Table.keys added, key ∉ Table.keys (definitionsOf document)) {raw : String} :
    raw ∈ strings out ↔ raw ∈ strings document ∨
      ∃ e ∈ added, ¬ (e.1 = refKey ∧ skipped none = true) ∧ raw ∈ strings e.2 := by
  apply addDefinitions_relates h unique fresh (R := fun old new =>
    raw ∈ strings new ↔ raw ∈ strings old ∨
      ∃ e ∈ added, ¬ (e.1 = refKey ∧ skipped none = true) ∧ raw ∈ strings e.2)
  case same => simp +contextual
  case insert => exact fun key other fields new grown => law.mem_insert other fields grown
  case append => exact fun fields fresh => law.mem_append objects fresh

/-! The account. -/

/-- What a merge of a document into itself comes to, with the given files. -/
def result (files : FileTree) (document : Json) (file : Option Path) (baseDir : Path) :
    Except Fault Merged :=
  ((Merge.document document file baseDir).run.run (Resolver.fresh files)).1

theorem run_fresh (files : FileTree) (document : Json) (file : Option Path) (baseDir : Path) :
    ((Merge.document document file baseDir).run.run (Resolver.fresh files)).1 =
      result files document file baseDir := rfl

/-- What a merge has done: the targets that it brought in, in the order in which it met them, and
the names by which the keys of targets are referred to. -/
structure Account (files : FileTree) (root : Root) (baseDir : Path) (targets : List Resolved)
    (names : Table String) (m : Merged) : Prop where
  isObject : root.document.isObject = true
  document : addDefinitions
    (root.document.mapRefs (localForm files root names ⟨none, baseDir⟩)) m.inlined = .ok m.document
  inlined : m.inlined = targets.map fun t =>
    (t.name, t.node.mapRefs (localForm files root names t.origin))
  unique : (targets.map (·.name)).Nodup
  reached : ∀ t ∈ targets, Reached files root baseDir t ∧ t.name ∉ root.authored ∧
    t.node.isObject = true
  assigned : ∀ t ∈ targets, names.get? t.canonical = some t.name
  known : ∀ key name, names.get? key = some name → ∃ t, Reached files root baseDir t ∧
    t.canonical = key ∧ t.name = name ∧ (name ∈ root.authored ∨ t ∈ targets)
  /-- If nothing is brought in, only the document's own references have given names. -/
  early : targets = [] → ∀ key name, names.get? key = some name →
    ∃ t, Near files root baseDir t ∧ t.canonical = key ∧ t.name = name
  settledRoot : ∀ raw ∈ root.document.refs, Settled files root names ⟨none, baseDir⟩ raw
  settledTargets : ∀ t ∈ targets, ∀ raw ∈ t.node.refs, Settled files root names t.origin raw

variable {files : FileTree} {document : Json} {file : Option Path} {baseDir : Path}
  {fails : Fault → Prop}

/-- When no target is open, the inlined nodes are the targets with their strings in local form. -/
theorem Sound.inlined_eq {root : Root} {targets : List Resolved} {w : Walk}
    (h : Sound files root baseDir [] targets w) : w.inlined = targets.map fun t =>
      (t.name, t.node.mapRefs (localForm files root w.assigned t.origin)) := by
  have keys : Table.keys (targets.map fun t =>
      (t.name, t.node.mapRefs (localForm files root w.assigned t.origin))) =
      targets.map (·.name) := by
    simp [Table.keys]
  apply Table.eq_of_keys
  · rw [h.names, keys]
  · rw [keys]
    exact h.unique
  · intro entry member
    obtain ⟨t, place, rfl⟩ := List.mem_map.mp member
    rcases h.finished t place with active | ⟨inlined, _⟩
    · cases active
    · exact inlined

theorem Sound.account {root : Root} {targets : List Resolved} {w : Walk}
    (h : Sound files root baseDir [] targets w) (isObject : root.document.isObject = true)
    (settled : ∀ raw ∈ root.document.refs, Settled files root w.assigned ⟨none, baseDir⟩ raw)
    {m : Merged} (inlined : m.inlined = w.inlined)
    (added : addDefinitions (root.document.mapRefs
      (localForm files root w.assigned ⟨none, baseDir⟩)) m.inlined = .ok m.document) :
    Account files root baseDir targets w.assigned m where
  isObject
  document := added
  inlined := inlined.trans h.inlined_eq
  unique := h.unique
  reached := h.reached
  assigned := h.assigned
  known := h.known
  early := h.early
  settledRoot := settled
  settledTargets t place := by
    rcases h.finished t place with active | ⟨_, settled⟩
    · cases active
    · exact settled

/-- A merge walks over its document, and then adds what the walk has brought in. -/
theorem meets_document_of_walk {r : Resolver} {post : Merged → Resolver → Prop}
    (shape : document.isObject = false → fails (.cannotMerge .rootNotObject))
    (walk : document.isObject = true → Meets (document.mapRefsM
        (rewriteRef (Root.of document file)
          (bring (Root.of document file) (depthLimit (Root.of document file) r)) none baseDir))
      { resolver := r } (fun out w =>
        (∀ fault, addDefinitions out w.inlined = .error fault → fails fault) ∧
        ∀ made, addDefinitions out w.inlined = .ok made → post ⟨made, file, w.inlined⟩ w.resolver)
      fails) :
    Meets (Merge.document document file baseDir) r post fails := by
  rw [Merge.document]
  by_cases isObject : document.isObject = true
  · simp only [isObject, Bool.not_true, Bool.false_eq_true, ↓reduceIte]
    apply Meets.get_bind
    have walk := walk isObject
    rw [Meets] at walk
    split at walk
    · rename_i out w run
      simp only [run]
      apply Meets.set_bind
      apply Meets.lift_bind
      · rintro _ ⟨⟩
        apply Meets.lift_bind
        · exact fun made added => Meets.pure (walk.2 made added)
        · exact walk.1
      · rintro _ ⟨⟩
    · rename_i fault w run
      simp only [run]
      exact walk
  · simp only [isObject, Bool.not_false, ↓reduceIte]
    exact Meets.throw (shape (by simpa using isObject))

/-- A merge comes to a document as `Account` says, or it fails for one of the reasons. -/
theorem meets_document {r : Resolver} (consistent : Consistent files r)
    (shape : document.isObject = false → fails (.cannotMerge .rootNotObject))
    (blames : Blames files (Root.of document file) baseDir
      (depthLimit (Root.of document file) r) fails)
    (layout : ∀ {targets w}, Sound files (Root.of document file) baseDir [] targets w →
      ∀ form fault, addDefinitions (document.mapRefs form) w.inlined = .error fault →
        fails fault) :
    Meets (Merge.document document file baseDir) r (fun m _ =>
      m.path = file ∧ ∃ targets names, Account files (Root.of document file) baseDir targets names m)
      fails := by
  apply meets_document_of_walk shape
  intro isObject
  apply (meets_walk consistent blames (Nat.le_succ _)).mono
  rintro out w ⟨⟨targets, sound⟩, settled, rfl⟩
  refine ⟨fun fault failed => layout sound _ fault failed, ?_⟩
  intro made added
  exact ⟨rfl, targets, w.assigned, sound.account isObject settled rfl added⟩

theorem result_of_meets {post : Merged → Prop}
    (h : Meets (Merge.document document file baseDir) (Resolver.fresh files) (fun m _ => post m)
      fails) : match result files document file baseDir with
        | .ok m => post m
        | .error fault => fails fault := by
  rw [Meets] at h
  rw [result]
  split at h
  · simp_all
  · simp_all

theorem blames_any (files : FileTree) (root : Root) (baseDir : Path) (limit : Nat) :
    Blames files root baseDir limit fun _ => True where
  text _ _ _ := trivial
  meaning _ _ _ _ := trivial
  collision _ _ _ _ _ := trivial
  shape _ _ _ _ := trivial
  depth _ _ := trivial

theorem account_of_run {r : Resolver} (consistent : Consistent files r) {m : Merged}
    (h : ((Merge.document document file baseDir).run.run r).1 = .ok m) :
    m.path = file ∧ ∃ targets names,
      Account files (Root.of document file) baseDir targets names m := by
  have anyway := blames_any files (Root.of document file) baseDir
    (depthLimit (Root.of document file) r)
  have law := meets_document consistent (fun _ => trivial) anyway fun _ _ _ _ => trivial
  obtain ⟨_, account⟩ := law.of_ok h
  exact account

theorem account_of_ok {m : Merged} (h : result files document file baseDir = .ok m) :
    m.path = file ∧ ∃ targets names,
      Account files (Root.of document file) baseDir targets names m :=
  account_of_run (Resolver.consistent_fresh files) h

/-- A merge succeeds if there is no reason for it to fail. -/
theorem exists_ok_of_blames (shape : document.isObject = true)
    (blames : Blames files (Root.of document file) baseDir
      (depthLimit (Root.of document file) (Resolver.fresh files)) fun _ => False)
    (layout : ∀ {targets w}, Sound files (Root.of document file) baseDir [] targets w →
      ∀ form fault, addDefinitions (document.mapRefs form) w.inlined ≠ .error fault) :
    ∃ m, result files document file baseDir = .ok m := by
  have law := result_of_meets (meets_document (Resolver.consistent_fresh files) (by simp [shape])
    blames layout)
  cases run : result files document file baseDir with
  | ok m => exact ⟨m, rfl⟩
  | error fault =>
    rw [run] at law
    exact law.elim

variable {targets : List Resolved} {names : Table String} {m : Merged}

theorem Account.objects {root : Root} (account : Account files root baseDir targets names m) :
    ∀ e ∈ m.inlined, e.2.isObject = true := by
  intro e member
  rw [account.inlined, List.mem_map] at member
  obtain ⟨t, place, rfl⟩ := member
  rw [Json.isObject_mapRefs]
  exact (account.reached t place).2.2

/-- The names of the targets that were brought in are new. -/
theorem Account.fresh {document : Json} {file : Option Path}
    (account : Account files (Root.of document file) baseDir targets names m)
    (form : String → String) :
    ∀ key ∈ Table.keys m.inlined, key ∉ Table.keys (definitionsOf (document.mapRefs form)) := by
  intro key member
  rw [account.inlined, Table.keys, List.map_map, List.mem_map] at member
  obtain ⟨t, place, rfl⟩ := member
  rw [definitionsOf_mapRefs, Json.keys_mapEntries, ← authored_eq document file]
  exact (account.reached t place).2.1

theorem Account.keys_nodup {root : Root}
    (account : Account files root baseDir targets names m) : (Table.keys m.inlined).Nodup := by
  rw [account.inlined, Table.keys, List.map_map]
  exact account.unique

end ApiGraph.Merge
