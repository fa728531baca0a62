import ApiGraph.Proofs.Document.Loaded
import ApiGraph.Proofs.Merge.AuthoringKeys
import ApiGraph.Proofs.Merge.Shared
import ApiGraph.Proofs.Table.Order

/-! What is combined from several sources. The sources are merged one after the other and collected
part by part; what is collected in the end is the last declaration of each entry, at the place of
the first one (`yields_collect`, `Part.get?_gathered`). `Rebuilt` says what the combined document is
like: the frame of the master, the sections in their order, and in each part the entries as last
declared, without what is for models only and without authoring keys. Nothing else has these
properties (`Rebuilt.get?_entries`), and whatever merges is combined into such a document
(`combine_rebuilds`). -/

namespace ApiGraph

namespace Merge

open Resolver (Consistent Yields)

/-! The parts of a document. -/

/-- A part that is collected from sources: the paths, or one section of the components. -/
inductive Part
  | paths
  | component (name : String)
deriving DecidableEq

/-- What a document has in a part. -/
def Part.value? (part : Part) (document : Json) : Option Json :=
  match part with
  | .paths => document.get? "paths"
  | .component name => (document.get? "components").bind (·.get? name)

/-- The entries that a document declares in a part. -/
def Part.entries (part : Part) (document : Json) : Table Json :=
  ((part.value? document).bind Json.fields?).getD []

/-- The parts that are collected. -/
def parts : List Part := .paths :: componentSections.map .component

/-- An entry of a part without what is for models only. -/
def Part.trimmed (part : Part) (j : Json) : Json :=
  match part with
  | .paths => j
  | .component name => if name = "schemas" then withoutModelOnly j else j

/-- What is left of an entry of a part without what is for models only: of a definition its other
properties, and the whole of any other entry. -/
def Part.Trims (part : Part) (j out : Json) : Prop :=
  if part = .component "schemas" then Trimmed j out else out = j

theorem Part.trimmed_eq (part : Part) (other : part ≠ .component "schemas") (j : Json) :
    part.trimmed j = j := by
  cases part with
  | paths => rfl
  | component title => exact if_neg fun same => other (congrArg _ same)

theorem Part.trims_iff {part : Part} {j out : Json} : part.Trims j out ↔ out = part.trimmed j := by
  rw [Trims]
  split
  · rename_i isSchema
    subst isSchema
    exact trimmed_iff
  · rename_i other
    rw [part.trimmed_eq other]

/-- The entries that some documents declare in a part, one document over the other. -/
def Part.gathered (part : Part) (documents : List Json) : Table Json :=
  Table.ofList (documents.flatMap part.entries)

/-- The value of the last document that declares an entry. -/
def Part.last (part : Part) (documents : List Json) (name : String) : Option Json :=
  documents.reverse.findSome? fun document => Table.get? (part.entries document) name

theorem Part.keys_gathered (part : Part) (documents : List Json) :
    Table.keys (part.gathered documents) =
      (documents.flatMap fun document => Table.keys (part.entries document)).eraseDups := by
  rw [gathered, Table.keys_ofList, Table.keys, List.map_flatMap]
  rfl

theorem Part.get?_gathered (part : Part) {documents : List Json}
    (unique : ∀ document ∈ documents, (Table.keys (part.entries document)).Nodup) (name : String) :
    Table.get? (part.gathered documents) name = part.last documents name := by
  rw [gathered, Table.get?_ofList, last]
  induction documents with
  | nil => rfl
  | cons document rest ih =>
    have here := Table.get?_reverse (unique document (by simp)) name
    have later := ih fun document member => unique document (by simp [member])
    rw [List.flatMap_cons, List.reverse_append, Table.get?_append, later, here, List.reverse_cons,
      List.findSome?_append]
    simp

/-- What was collected from some documents. -/
def collectedFrom (documents : List Json) : Collected where
  paths := Part.paths.gathered documents
  sections := componentSections.map fun name => (Part.component name).gathered documents

theorem Part.gathered_concat (part : Part) (documents : List Json) (document : Json) :
    part.gathered (documents ++ [document]) =
      absorb (part.gathered documents) (part.value? document) := by
  rw [gathered, gathered, Table.ofList, Table.ofList, List.flatMap_append, Table.insertAll_append,
    List.flatMap_singleton]
  rfl

theorem zip_sections {α : Type} (f : String → α) :
    componentSections.zip (componentSections.map f) =
      componentSections.map fun name => (name, f name) := by
  have both := @List.zip_map' _ _ _ id f componentSections
  rwa [List.map_id] at both

theorem absorb_collectedFrom (documents : List Json) (document : Json) :
    (collectedFrom documents).absorb document = collectedFrom (documents ++ [document]) := by
  rw [collectedFrom, collectedFrom, Collected.absorb]
  simp only [Part.gathered_concat, zip_sections, List.map_map]
  rfl

variable {files : FileTree} {r : Resolver}

/-- Sources that are merged one after the other, with what is loaded kept, come to what they come to
each on its own. -/
theorem yields_collect (h : Consistent files r) (before : List Json) (paths : List Path) :
    Yields files r (collect (collectedFrom before) paths)
      ((paths.mapM (fileResult files)).map fun ms =>
        collectedFrom (before ++ ms.map (·.document))) := by
  induction paths generalizing before r with
  | nil =>
    have nothing : (([] : List Path).mapM (fileResult files)).map (fun ms =>
        collectedFrom (before ++ ms.map (·.document))) = .ok (collectedFrom before) := by
      simp [Except.map, pure, Except.pure]
    rw [nothing]
    exact Yields.pure h
  | cons path paths ih =>
    have opened : ((path :: paths).mapM (fileResult files)).map (fun ms =>
        collectedFrom (before ++ ms.map (·.document))) = fileResult files path >>= fun m =>
          (paths.mapM (fileResult files)).map fun ms =>
            collectedFrom (before ++ [m.document] ++ ms.map (·.document)) := by
      rw [List.mapM_cons]
      cases fileResult files path with
      | error fault => rfl
      | ok m =>
        rw [ok_bind, ok_bind]
        cases paths.mapM (fileResult files) with
        | error fault => rfl
        | ok ms => simp [Except.map, ok_bind, pure, Except.pure]
    rw [opened, collect]
    apply Yields.bind (yields_file h path)
    intro m r _ h
    rw [absorb_collectedFrom]
    exact ih h _

/-! What is merged has no key twice. -/

theorem unrepeated_addDefinitions {document out : Json} {added : Table Json}
    (h : addDefinitions document added = .ok out) (unique : (Table.keys added).Nodup)
    (fresh : ∀ key ∈ Table.keys added, key ∉ Table.keys (definitionsOf document))
    (each : ∀ e ∈ added, e.2.Unrepeated) (unrepeated : document.Unrepeated) : out.Unrepeated := by
  refine addDefinitions_relates (R := fun old new => old.Unrepeated → new.Unrepeated) h unique fresh
    (fun _ => id) ?_ ?_ unrepeated
  · intro key _ fields new grown before
    apply before.insert
    apply grown
    cases place : Table.get? fields key with
    | none => exact .object List.nodup_nil (by simp)
    | some old => exact before.get? place
  · intro fields fresh before
    cases before with
    | object uniqueOld eachOld =>
      refine .object ?_ ?_
      · rw [Table.keys_append, List.nodup_append]
        exact ⟨uniqueOld, unique, fun key old other new same => fresh other new (same ▸ old)⟩
      · intro e member
        rcases List.mem_append.mp member with old | new
        · exact eachOld e old
        · exact each e new

theorem unrepeated_of_result {document : Json} {file : Option Path} {baseDir : Path} {m : Merged}
    (unrepeated : document.Unrepeated) (h : result files document file baseDir = .ok m) :
    m.document.Unrepeated := by
  obtain ⟨_, targets, names, account⟩ := account_of_ok h
  apply unrepeated_addDefinitions account.document account.keys_nodup (account.fresh _) ?_
    (unrepeated.mapRefs _)
  rw [account.inlined]
  intro e member
  obtain ⟨t, place, rfl⟩ := List.mem_map.mp member
  obtain ⟨away, origin, raw, leads⟩ := (account.reached t place).1.leads
  obtain ⟨landed, _, _⟩ := landed_meaning leads
  obtain ⟨p, file⟩ := Resolved.exists_file away
  obtain ⟨_, _, _, document, loaded, stands⟩ := landed.there p file
  exact ((FileTree.unrepeated_of_load loaded).lookup stands).mapRefs _

theorem unrepeated_of_fileResult {path : Path} {m : Merged}
    (h : fileResult files path = .ok m) : m.document.Unrepeated := by
  rw [fileResult] at h
  split at h
  · cases h
  · obtain ⟨document, loaded, h⟩ := bind_eq_ok.mp h
    exact unrepeated_of_result (FileTree.unrepeated_of_load loaded) h

theorem Part.unrepeated_value (part : Part) {document k : Json} (h : document.Unrepeated)
    (found : part.value? document = some k) : k.Unrepeated := by
  have below : ∀ {j k : Json} {key : String}, j.Unrepeated → j.get? key = some k →
      k.Unrepeated := by
    intro j k key h found
    cases j with
    | object fields => exact h.get? found
    | _ => cases found
  cases part with
  | paths => exact below h found
  | component name =>
    obtain ⟨components, first, second⟩ := Option.bind_eq_some_iff.mp found
    exact below (below h first) second

theorem Part.keys_entries_nodup (part : Part) {document : Json} (h : document.Unrepeated) :
    (Table.keys (part.entries document)).Nodup := by
  rw [entries]
  cases found : part.value? document with
  | none => exact List.nodup_nil
  | some k =>
    cases k with
    | object fields =>
      cases part.unrepeated_value h found with
      | object unique _ => exact unique
    | _ => exact List.nodup_nil

section

variable {part : Part} {documents : List Json} {document : Json} {name : String} {entry : Json}

theorem Part.object_of_entry
    (found : Table.get? (part.entries document) name = some entry) :
    ∃ entries, part.value? document = some (.object entries) ∧
      Table.get? entries name = some entry := by
  rw [Part.entries] at found
  cases value : part.value? document with
  | none =>
    rw [value] at found
    cases found
  | some j =>
    rw [value] at found
    cases j with
    | object entries => exact ⟨entries, rfl, found⟩
    | _ => cases found

/-- The last declaration of an entry is one of them. -/
theorem Part.exists_of_last (found : part.last documents name = some entry) :
    ∃ document ∈ documents, Table.get? (part.entries document) name = some entry := by
  obtain ⟨document, member, declared⟩ := List.exists_of_findSome?_eq_some found
  exact ⟨document, List.mem_reverse.mp member, declared⟩

theorem Part.unrepeated_of_last (unrepeated : ∀ d ∈ documents, d.Unrepeated)
    (found : part.last documents name = some entry) :
    entry.Unrepeated := by
  obtain ⟨d, member, declared⟩ := part.exists_of_last found
  obtain ⟨entries, holds, inEntries⟩ := part.object_of_entry declared
  exact (part.unrepeated_value (unrepeated d member) holds).get? inEntries

theorem Part.unrepeated_trimmed (part : Part) (unrepeated : entry.Unrepeated) :
    (part.trimmed entry).Unrepeated := by
  cases part with
  | paths => exact unrepeated
  | component name =>
    rw [trimmed]
    split
    · exact unrepeated_withoutModelOnly unrepeated
    · exact unrepeated

end

/-! The combined document. -/

/-- An entry of a document besides its paths and its components. -/
def isFrame (key : String) : Bool := key ≠ "paths" && key ≠ "components"

/-- What some documents come to that are combined into the skeleton of a master with the given
entries. -/
structure Rebuilt (top : Table Json) (documents : List Json) (out : Json) : Prop where
  frame : ∃ entries, out = .object entries ∧
    Stripped (.object (top.filter fun e => isFrame e.1))
      (.object (entries.filter fun e => isFrame e.1))
  sections : ((out.get? "components").bind Json.fields?).map Table.keys = some componentSections
  isObject : ∀ part ∈ parts, ∃ entries, part.value? out = some (.object entries)
  keys : ∀ part ∈ parts, Table.keys (part.entries out) =
    (documents.flatMap fun document => Table.keys (part.entries document)).eraseDups.filter
      (· ∉ authoringKeys)
  entry : ∀ part ∈ parts, ∀ name ∉ authoringKeys, ∀ j, part.last documents name = some j →
    ∃ trimmed value, part.Trims j trimmed ∧ Stripped trimmed value ∧
      Table.get? (part.entries out) name = some value
  absent : ∀ part ∈ parts, ∀ name, name ∈ authoringKeys ∨ part.last documents name = none →
    Table.get? (part.entries out) name = none

/-- Each entry of the combined document is told by the documents. -/
theorem Rebuilt.get?_entries {top : Table Json} {documents : List Json} {out : Json}
    (h : Rebuilt top documents out) (unrepeated : ∀ document ∈ documents, document.Unrepeated)
    {part : Part} (collected : part ∈ parts) (name : String) :
    Table.get? (part.entries out) name = if name ∈ authoringKeys then none
      else (part.last documents name).map fun j => stripAuthoringKeys (part.trimmed j) := by
  by_cases authoring : name ∈ authoringKeys
  · rw [if_pos authoring, h.absent part collected name (Or.inl authoring)]
  · rw [if_neg authoring]
    cases last : part.last documents name with
    | none => exact h.absent part collected name (Or.inr last)
    | some j =>
      obtain ⟨trimmed, value, trims, stripped, found⟩ :=
        h.entry part collected name authoring j last
      obtain rfl := Part.trims_iff.mp trims
      have below := part.unrepeated_trimmed (Part.unrepeated_of_last unrepeated last)
      rw [found, stripped.eq below, Option.map_some]

/-- The entries of a part, before authoring keys are taken out. -/
def Part.taken (part : Part) (documents : List Json) : Table Json :=
  (part.gathered documents).map fun e => (e.1, part.trimmed e.2)

/-- The combined document, before authoring keys are taken out. -/
def rebuilt (top : Table Json) (documents : List Json) : Table Json :=
  Table.insert (Table.insert top "paths" (.object (Part.paths.taken documents))) "components"
    (.object (componentSections.map fun name =>
      (name, .object ((Part.component name).taken documents))))

theorem modifyDefinitions_assemble (top : Table Json) (documents : List Json) :
    modifyDefinitions (.object (assemble top (collectedFrom documents)))
      (fun schemas => schemas.map fun (name, schema) => (name, withoutModelOnly schema)) =
      .ok (.object (rebuilt top documents)) := by
  have same : ∀ name, (Part.component name).taken documents =
      ((Part.component name).gathered documents).map fun e =>
        (e.1, if name = "schemas" then withoutModelOnly e.2 else e.2) := fun _ => rfl
  have paths : Part.paths.taken documents = Part.paths.gathered documents :=
    List.map_id' _
  let components := componentSections.map fun name =>
    (name, Json.object ((Part.component name).gathered documents))
  have zipped : componentSections.zip ((collectedFrom documents).sections.map Json.object) =
      components := by
    rw [collectedFrom, List.map_map, zip_sections]
    rfl
  have layout : Layout (.object (assemble top (collectedFrom documents)))
      (assemble top (collectedFrom documents)) components
      ((Part.component "schemas").gathered documents) := by
    refine ⟨rfl, ?_, rfl⟩
    rw [assemble, zipped, Table.get?_insert_self]
    rfl
  rw [modifyDefinitions_of_layout layout, relaid, assemble, zipped, Table.insert_insert, rebuilt,
    paths]
  simp [components, componentSections, same, Table.insert, collectedFrom]

theorem not_authoring {name : String} (collected : name ∈ componentSections) :
    name ∉ authoringKeys := by
  revert name
  decide

/-- Each part of the combined document holds what was taken for it. -/
theorem value?_rebuilt (top : Table Json) (documents : List Json) {part : Part}
    (collected : part ∈ parts) :
    part.value? (stripAuthoringKeys (.object (rebuilt top documents))) =
      some (.object (stripFields (part.taken documents))) := by
  have components : (Json.object (rebuilt top documents)).get? "components" =
      some (.object (componentSections.map fun name =>
        (name, .object ((Part.component name).taken documents)))) := Table.get?_insert_self _ _ _
  rcases List.mem_cons.mp collected with rfl | isSection
  · have paths : (Json.object (rebuilt top documents)).get? "paths" =
        some (.object (Part.paths.taken documents)) := by
      have other : "components" ≠ "paths" := by decide
      have entry := Table.get?_insert_self top "paths" (.object (Part.paths.taken documents))
      rwa [← Table.get?_insert_ne other] at entry
    rw [Part.value?, get?_stripAuthoringKeys (by decide), paths]
    rfl
  · obtain ⟨name, member, rfl⟩ := List.mem_map.mp isSection
    rw [Part.value?, get?_stripAuthoringKeys (by decide), components, Option.map_some,
      Option.bind_some, get?_stripAuthoringKeys (not_authoring member)]
    have entry := Table.get?_map_of_mem member fun name =>
      Json.object ((Part.component name).taken documents)
    rw [Json.get?, Json.fields?, Option.bind_some, entry]
    rfl

theorem get?_entries_rebuilt (top : Table Json) {documents : List Json}
    (unrepeated : ∀ document ∈ documents, document.Unrepeated) {part : Part}
    (collected : part ∈ parts) (name : String) :
    Table.get? (part.entries (stripAuthoringKeys (.object (rebuilt top documents)))) name =
      if name ∈ authoringKeys then none
      else (part.last documents name).map fun j => stripAuthoringKeys (part.trimmed j) := by
  have unique : ∀ document ∈ documents, (Table.keys (part.entries document)).Nodup :=
    fun document member => part.keys_entries_nodup (unrepeated document member)
  have taken := Table.get?_map (fun _ j => part.trimmed j) (part.gathered documents) name
  rw [Part.entries, value?_rebuilt top documents collected, Option.bind_some, Json.fields?,
    Option.getD_some, get?_stripFields, Part.taken, taken, part.get?_gathered unique,
    Option.map_map]
  rfl

theorem rebuilt_of_unrepeated (top : Table Json) {documents : List Json}
    (unrepeated : ∀ document ∈ documents, document.Unrepeated) :
    Rebuilt top documents (stripAuthoringKeys (.object (rebuilt top documents))) where
  frame := by
    have kept : ∀ fields : Table Json, (stripFields fields).filter (fun e => isFrame e.1) =
        stripFields (fields.filter fun e => isFrame e.1) := by
      intro fields
      simp only [stripFields_eq, List.filter_map, List.filter_filter, Function.comp_def,
        Bool.and_comm]
    refine ⟨stripFields (rebuilt top documents), rfl, ?_⟩
    rw [kept, rebuilt, Table.filter_insert (by decide), Table.filter_insert (by decide)]
    exact stripped_stripAuthoringKeys _
  sections := by
    rw [get?_stripAuthoringKeys (by decide), Json.get?, Json.fields?, Option.bind_some, rebuilt,
      Table.get?_insert_self, Option.map_some, stripAuthoringKeys, Option.bind_some, Json.fields?,
      Option.map_some, keys_stripFields, Table.keys, List.map_map]
    have names : componentSections.map (Prod.fst ∘ fun name =>
        (name, Json.object ((Part.component name).taken documents))) = componentSections :=
      List.map_id' _
    rw [names]
    decide
  isObject part collected := ⟨_, value?_rebuilt top documents collected⟩
  keys part collected := by
    have taken := Table.keys_map (fun _ j => part.trimmed j) (part.gathered documents)
    rw [Part.entries, value?_rebuilt top documents collected, Option.bind_some, Json.fields?,
      Option.getD_some, keys_stripFields, ← part.keys_gathered, Part.taken, taken]
  entry part collected name other j last := by
    refine ⟨_, _, Part.trims_iff.mpr rfl, stripped_stripAuthoringKeys _, ?_⟩
    rw [get?_entries_rebuilt top unrepeated collected, if_neg other, last, Option.map_some]
  absent part collected name gone := by
    rw [get?_entries_rebuilt top unrepeated collected]
    rcases gone with authoring | nowhere
    · rw [if_pos authoring]
    · rw [nowhere, Option.map_none, ite_self]

end Merge

open Merge (Rebuilt)

variable {files : FileTree}

theorem sources_eq_ok_iff {master : Path} {paths : List Path} {out : Json} :
    Merge.sources files master paths = .ok out ↔ ∃ top merged,
      files.load master = .ok (.object top) ∧
      paths.mapM (Merge.fileResult files) = .ok merged ∧
      out = Merge.stripAuthoringKeys (.object (Merge.rebuilt top (merged.map (·.document)))) := by
  obtain ⟨r, run, _⟩ := Merge.yields_collect (Resolver.consistent_fresh files) [] paths
  have start : Merge.collectedFrom [] = {} := rfl
  rw [start] at run
  cases loaded : files.load master with
  | error fault => simp [Merge.sources, loaded, error_bind]
  | ok j =>
    cases j with
    | object top =>
      simp only [Merge.sources, loaded, ok_bind, Json.fields?, run, List.nil_append]
      cases paths.mapM (Merge.fileResult files) with
      | error fault => simp [Except.map, error_bind]
      | ok merged =>
        simp [Except.map, ok_bind, Merge.modifyDefinitions_assemble, pure, Except.pure, eq_comm]
    | _ => simp [Merge.sources, loaded, ok_bind, Json.fields?]

/-- Sources are combined if the master is an object and each of them merges, and then as `rebuilt`
says. -/
theorem combine_eq_ok_iff {master : Path} {sources : List Path} {out : Json} :
    combine files master sources = .ok out ↔ ∃ top merged,
      files.load master = .ok (.object top) ∧ sources.mapM (mergeFile files) = .ok merged ∧
      out = Merge.stripAuthoringKeys (.object (Merge.rebuilt top (merged.map (·.document)))) := by
  have same : ∀ merged, sources.mapM (Merge.fileResult files) = .ok merged ↔
      sources.mapM (mergeFile files) = .ok merged := by
    intro merged
    apply mapM_eq_ok_congr
    intro source m
    rw [mergeFile_eq_reported, reported_eq_ok_iff]
  rw [combine, reported_eq_ok_iff, sources_eq_ok_iff]
  simp only [same]

theorem unrepeated_of_each {sources : List Path} {merged : List Merged}
    (each : sources.mapM (mergeFile files) = .ok merged) :
    ∀ document ∈ merged.map (·.document), document.Unrepeated := by
  intro document member
  obtain ⟨m, place, rfl⟩ := List.mem_map.mp member
  obtain ⟨source, _, h⟩ := (mem_of_mapM each m).mp place
  rw [mergeFile_eq_reported, reported_eq_ok_iff] at h
  exact Merge.unrepeated_of_fileResult h

/-- A master that is an object and sources that each merge are combined into a document in which the
last source that declares an entry gives its value and the first one its place. -/
theorem combine_rebuilds {master : Path} {top : Table Json} {sources : List Path}
    {merged : List Merged} (loaded : files.load master = .ok (.object top))
    (each : sources.mapM (mergeFile files) = .ok merged) :
    ∃ out, combine files master sources = .ok out ∧
      Rebuilt top (merged.map (·.document)) out := by
  exact ⟨_, combine_eq_ok_iff.mpr ⟨top, merged, loaded, each, rfl⟩,
    Merge.rebuilt_of_unrepeated top (unrepeated_of_each each)⟩

/-- A master with a path and a schema of its own, and two sources that both declare a cart. -/
def shopFiles : FileTree where
  entries := [
    (["master.yaml"], .file ("openapi: 3.0.0\nx-tags: shop\n" ++
      "info:\n  title: Shop\n  x-public: 1\n" ++
      "paths:\n  /stale:\n    get: 1\ncomponents:\n  schemas:\n    Stale: 1\n")),
    (["a.yaml"], .file ("paths:\n  /carts:\n    get: 1\n" ++
      "components:\n  schemas:\n    Cart:\n      title: a\n    Item:\n      title: item\n")),
    (["b.yaml"], .file ("components:\n  schemas:\n    Tag:\n      x-model: tag\n" ++
      "    Cart:\n      properties:\n        id:\n          type: string\n" ++
      "        key:\n          x-db:\n            model_only: true\n" ++
      "        total:\n          x-db:\n            model_only: false\n" ++
      "          type: number\n"))]

/-- What they are combined into. -/
def shopCombined : Json := .object [
  ("openapi", .string "3.0.0"),
  ("info", .object [("title", .string "Shop")]),
  ("paths", .object [("/carts", .object [("get", .number (.int 1))])]),
  ("components", .object [
    ("schemas", .object [
      ("Cart", .object [("properties", .object [
        ("id", .object [("type", .string "string")]),
        ("total", .object [("type", .string "number")])])]),
      ("Item", .object [("title", .string "item")]),
      ("Tag", .object [])]),
    ("responses", .object []), ("parameters", .object []), ("examples", .object []),
    ("requestBodies", .object []), ("securitySchemes", .object []), ("headers", .object [])])]

/-- The cart stands at the place of its first declaration with the value of its last one. -/
theorem shop_rebuilt : ∃ top merged, shopFiles.load ⟨"/master.yaml"⟩ = .ok (.object top) ∧
    [⟨"/a.yaml"⟩, ⟨"/b.yaml"⟩].mapM (mergeFile shopFiles) = .ok merged ∧
    combine shopFiles ⟨"/master.yaml"⟩ [⟨"/a.yaml"⟩, ⟨"/b.yaml"⟩] = .ok shopCombined ∧
    Rebuilt top (merged.map (·.document)) shopCombined := by
  have combined : combine shopFiles ⟨"/master.yaml"⟩ [⟨"/a.yaml"⟩, ⟨"/b.yaml"⟩] =
      .ok shopCombined := by
    decide +kernel
  obtain ⟨top, merged, loaded, each, _⟩ := combine_eq_ok_iff.mp combined
  obtain ⟨out, again, rebuilt⟩ := combine_rebuilds loaded each
  obtain rfl := Except.ok.inj (combined.symm.trans again)
  exact ⟨top, merged, loaded, each, combined, rebuilt⟩

end ApiGraph
