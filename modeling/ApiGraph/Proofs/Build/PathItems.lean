import ApiGraph.Proofs.Build.Amended
import ApiGraph.Proofs.Endpoint.Described

/-! Graphs and the path items of their description. Every path has its endpoint, which says what the
path item declares, and an entry of a path item that is neither a supported method nor one of its
fields counts only for references that lead to it (`graph_follows_paths`). -/

namespace ApiGraph

open Json (KeepsBut amendFields)
open Merge (definitionsOf)

namespace PathItem

/-- The keys under which something is read in a path item. -/
def readKeys : List String := HttpMethod.supported.map HttpMethod.name ++ fieldNames

variable {item : PathItem} {fields fields' : Table Json}

/-- Supported methods stand under keys that are read. -/
theorem supportedOperation?_filter (fields : Table Json) :
    (fields.filter fun entry => entry.1 ∈ readKeys).filterMap supportedOperation? =
      fields.filterMap supportedOperation? := by
  rw [List.filterMap_filter]
  apply List.filterMap_congr
  rintro ⟨key, j⟩ _
  by_cases isRead : key ∈ readKeys
  · simp [isRead]
  · have unsupported : supportedOperation? (key, j) = none := by
      cases isMethod : HttpMethod.ofName? key with
      | none => simp [supportedOperation?, isMethod]
      | some m =>
        obtain rfl := ofName?_eq_some_iff.mp isMethod
        have isRead' : m.isSupported = true → m.name ∈ readKeys := by cases m <;> decide
        have unsupported : m.isSupported = false := by simpa using fun h => isRead (isRead' h)
        simp [supportedOperation?, isMethod, unsupported]
    simp [isRead, unsupported]

/-- Only what stands under the keys that are read counts. -/
theorem exists_same (kept : fields'.filter (fun entry => entry.1 ∈ readKeys) =
      fields.filter fun entry => entry.1 ∈ readKeys)
    (read : ofJson (.object fields) = .ok item) :
    ∃ item', ofJson (.object fields') = .ok item' ∧ item.Same item' := by
  obtain ⟨_, r, same, isRecord, isNamespace, areParameters, areServers, entries⟩ :=
    ofJson_eq_ok.mp read
  cases same
  have part : ∀ fields : Table Json, fields.filter (fun entry => entry.1 ∈ fieldNames) =
      (fields.filter fun entry => entry.1 ∈ readKeys).filter fun entry =>
        entry.1 ∈ fieldNames := by
    intro fields
    rw [List.filter_filter]
    refine List.filter_congr fun entry _ => ?_
    by_cases isField : entry.1 ∈ fieldNames
    · simp [isField, readKeys]
    · simp [isField]
  have isRecord' := isRecord
  rw [← Record.ofFields_congr (by rw [part fields', kept, ← part])] at isRecord'
  refine ⟨{ item with entries := fields'.filter fun entry => entry.1 ∉ fieldNames },
    ofJson_eq_ok.mpr ⟨fields', r, rfl, isRecord', isNamespace, areParameters, areServers, rfl⟩,
    ⟨rfl, rfl, rfl, ?_⟩⟩
  rw [supported_operations entries, ← supportedOperation?_filter fields, ← kept,
    supportedOperation?_filter]
  exact supported_operations rfl

variable {key : String} {alter : Table Json → Table Json}

theorem filter_readKeys (keeps : KeepsBut key alter) (unread : key ∉ readKeys)
    (fields : Table Json) : (alter fields).filter (fun entry => entry.1 ∈ readKeys) =
      fields.filter fun entry => entry.1 ∈ readKeys :=
  keeps.filter (fun name => decide (name ∈ readKeys)) (by simpa using unread) fields

/-- A change under a key that is not read gives the same path item. -/
theorem exists_amended (keeps : KeepsBut key alter) (unread : key ∉ readKeys) {j : Json}
    (read : ofJson j = .ok item) :
    ∃ item', ofJson (amendFields alter j) = .ok item' ∧ item.Same item' := by
  obtain ⟨fields, _, rfl, _⟩ := ofJson_eq_ok.mp read
  exact exists_same (filter_readKeys keeps unread fields) read

theorem exists_of_amended (keeps : KeepsBut key alter) (unread : key ∉ readKeys) {j : Json}
    (read : ofJson (amendFields alter j) = .ok item) :
    ∃ item', ofJson j = .ok item' ∧ item.Same item' := by
  cases j with
  | object fields => exact exists_same (filter_readKeys keeps unread fields).symm read
  | _ => cases read

end PathItem

namespace Build

/-- Paths whose items are the same but for what is no supported method. -/
abbrev SamePaths (paths paths' : Table PathItem) : Prop :=
  List.Forall₂ (fun entry entry' => entry'.1 = entry.1 ∧ entry.2.Same entry'.2) paths paths'

theorem SamePaths.soughtRefs {paths paths' : Table PathItem} (same : SamePaths paths paths') :
    Endpoint.soughtRefs paths' = Endpoint.soughtRefs paths := by
  induction same with
  | nil => rfl
  | cons first _ ih =>
    simp only [Endpoint.soughtRefs, List.flatMap_cons, first.2.operations,
      Endpoint.componentRefs, first.2.parameters] at ih ⊢
    rw [ih]

variable {files : FileTree} {d d' : Description} {options : Options} {path key : String}
  {alter : Table Json → Table Json}

/-- Descriptions with the same path items, whose references to components lead to the same records,
are built to the same graph. -/
theorem graph_of_samePaths (same : SameBesides files d d')
    (unique : (definitionsOf d.document).keys.Nodup)
    (paths : ∀ paths, d.paths = .ok paths → ∃ paths', d'.paths = .ok paths' ∧
      SamePaths paths paths' ∧ ∀ fields raw f, (fields, raw) ∈ Endpoint.soughtRefs paths →
        Reference.ofText raw = .ok (.inFile f) →
        Option.Rel (Record.Resembles fields) (f.lookup d.document) (f.lookup d'.document)) :
    Gives (graph files d options) (graph files d' options) := by
  refine graph_of_besides same unique fun entities items read => ?_
  obtain ⟨items', read', samePaths, records⟩ := paths items read
  refine ⟨items', read', ?_⟩
  refine ((List.forall₂_and_left _ _).mpr ⟨fun entry => id, samePaths⟩).imp ?_
  rintro ⟨path, item⟩ ⟨path', item'⟩ ⟨isPath, rfl, sameItem⟩
  refine Endpoint.itemAlike_of_sameRecord (fun _ => rfl) sameItem ?_
  intro entry isRef f node isLocal stands
  have sought := Endpoint.soughtRefs_subset isPath isRef
  exact Record.Resembles.exists_of_rel (records entry.1 entry.2 f sought isLocal) stands

section

variable (keeps : KeepsBut key alter) (unread : key ∉ PathItem.readKeys)
include keeps

theorem lookup_amended {fields : List String} {f : Fragment} (written : f.Written)
    (unseen : ¬ f.Reads d.document fields ["paths", path, key]) :
    Option.Rel (Record.Resembles fields) (f.lookup d.document)
      (f.lookup (d.amendPaths (amendFields alter) [path]).document) := by
  cases shape : d.document.isObject with
  | true => exact Json.lookup_amendEntry keeps written shape (List.cons_ne_nil _ _) unseen
  | false =>
    rw [Description.document_amendPaths shape]
    exact Record.Resembles.rel_refl fields _

include unread

theorem paths_amended {paths : Table PathItem} (read : d.paths = .ok paths) :
    ∃ paths', (d.amendPaths (amendFields alter) [path]).paths = .ok paths' ∧
      SamePaths paths paths' := by
  obtain ⟨raw, isRaw, read⟩ := bind_eq_ok.mp read
  rw [Description.paths, Description.entries_amendPaths, isRaw]
  refine Description.exists_readEntries ((Table.forall₂_amend raw path _).imp ?_) read
  rintro ⟨name, j⟩ ⟨name', j'⟩ ⟨sameName, sameValue | ⟨_, _, sameValue⟩⟩
  · exact ⟨sameName, fun item isItem => ⟨item, sameValue ▸ isItem, rfl, .refl item⟩⟩
  · refine ⟨sameName, fun item isItem => ?_⟩
    obtain ⟨item', isItem', same⟩ := PathItem.exists_amended keeps unread isItem
    exact ⟨item', sameValue ▸ isItem', rfl, same⟩

theorem paths_of_amended {paths : Table PathItem}
    (read : (d.amendPaths (amendFields alter) [path]).paths = .ok paths) :
    ∃ paths', d.paths = .ok paths' ∧ SamePaths paths paths' := by
  rw [Description.paths, Description.entries_amendPaths] at read
  obtain ⟨_, isAmended, read⟩ := bind_eq_ok.mp read
  obtain ⟨raw, isRaw, rfl⟩ := map_eq_ok.mp isAmended
  rw [Description.paths, isRaw]
  refine Description.exists_readEntries (List.Forall₂.flip ((Table.forall₂_amend raw path _).imp ?_))
    read
  rintro ⟨name, j⟩ ⟨name', j'⟩ ⟨sameName, sameValue | ⟨_, _, sameValue⟩⟩
  · exact ⟨sameName.symm, fun item isItem => ⟨item, sameValue ▸ isItem, rfl, .refl item⟩⟩
  · refine ⟨sameName.symm, fun item isItem => ?_⟩
    obtain ⟨item', isItem', same⟩ := PathItem.exists_of_amended keeps unread (sameValue ▸ isItem)
    exact ⟨item', isItem', rfl, same⟩

end

/-- Every path has its endpoint, in document order, which says what the path item declares. What
stands under a key of a path item that is not read counts only for references that lead to it, into
it or to a value that is read at the key which leads on to it. -/
theorem graph_follows_paths (files : FileTree) (d : Description) (options : Options) :
    (∀ g, graph files d options = .ok g →
      ∃ raw, Description.entries "paths" (d.document.get? "paths") = .ok raw ∧
        List.Forall₂ (Endpoint.DescribesEntry d.document) raw g.endpoints) ∧
    ∀ path key alter, key ∉ PathItem.readKeys → KeepsBut key alter →
      (definitionsOf d.document).keys.Nodup → Spares files d ["paths", path, key] →
      ∀ g, graph files (d.amendPaths (amendFields alter) [path]) options = .ok g ↔
        graph files d options = .ok g := by
  refine ⟨fun g built => ?_, fun path key alter unread keeps unique spares g => ?_⟩
  · obtain ⟨_, s, steps⟩ := steps_of_graph built
    exact Endpoint.describes_of_collect steps.collected
  · have same : SameBesides files d (d.amendPaths (amendFields alter) [path]) :=
      sameBesides_amendPaths spares fun f written => lookup_amended keeps written
    have records : ∀ paths, d.paths = .ok paths → ∀ fields raw f,
        (fields, raw) ∈ Endpoint.soughtRefs paths → Reference.ofText raw = .ok (.inFile f) →
        Option.Rel (Record.Resembles fields) (f.lookup d.document)
          (f.lookup (d.amendPaths (amendFields alter) [path]).document) :=
      fun paths read fields raw f sought isLocal =>
        lookup_amended keeps (Reference.fragment_written isLocal)
          (spares fields f (.component read sought isLocal))
    constructor
    · refine graph_of_samePaths same.symm ?_ (fun paths' read' => ?_) g
      · rw [Description.definitionsOf_amendPaths]
        exact unique
      · obtain ⟨paths, read, samePaths⟩ := paths_of_amended keeps unread read'
        refine ⟨paths, read, samePaths, fun fields raw f sought isLocal => ?_⟩
        rw [← samePaths.soughtRefs] at sought
        exact Record.Resembles.rel_symm (records paths read fields raw f sought isLocal)
    · refine graph_of_samePaths same unique (fun paths read => ?_) g
      obtain ⟨paths', read', samePaths⟩ := paths_amended keeps unread read
      exact ⟨paths', read', samePaths, records paths read⟩

/-- Carts can be listed, a part at a time. -/
def carts : Description where
  document := .object [("openapi", .string "3.0.0"),
    ("paths", .object [("/carts", .object [
      ("parameters", .array [.object [("$ref", .string "#/components/parameters/Limit")]]),
      ("get", .object [
        ("parameters", .array [
          .object [("name", .string "page"), ("in", .string "query")],
          .object [("name", .string "limit"), ("in", .string "query")]]),
        ("responses", .object [("204", .object []), ("201", .object [])])]),
      ("summary", .string "All carts")])]),
    ("components", .object [
      ("parameters", .object [
        ("Limit", .object [("name", .string "limit"), ("in", .string "query")])]),
      ("schemas", .object [
        ("Cart", .object [("properties", .object [
          ("total", .object [("type", .string "number")])])])])])]

/-- The only reference leads to the component, so nothing among the paths is read through it. -/
theorem carts_spares (way : List String) : Spares {} carts ("paths" :: way) := by
  have refs : carts.paths.toOption.map Endpoint.soughtRefs =
      some [(Parameter.fieldNames, "#/components/parameters/Limit")] := by
    decide +kernel
  have isLimit : Reference.ofText "#/components/parameters/Limit" =
      .ok (.inFile (.pointer "/components/parameters/Limit")) := by
    decide +kernel
  have keys : (Fragment.pointer "/components/parameters/Limit").keys =
      ["components", "parameters", "Limit"] := by
    decide +kernel
  have noMembers : carts.definitions.toOption.map (fun definitions =>
      (members definitions).length) = some 0 := by
    decide +kernel
  intro fields f visited
  cases visited with
  | component read sought isLocal =>
    rw [read] at refs
    rw [Option.some.inj refs, List.mem_singleton] at sought
    cases sought
    obtain rfl := Reference.inFile.inj (Except.ok.inj (isLimit.symm.trans isLocal))
    apply Fragment.not_reads_of_apart <;> simp [keys]
  | member read isMember =>
    rw [read] at noMembers
    rw [List.eq_nil_of_length_eq_zero (Option.some.inj noMembers)] at isMember
    cases isMember

/-- The methods of carts as they are compiled. -/
def cartMethods : List (HttpMethod × EndpointMethod) :=
  [(.delete, {}),
   (.get, ⟨true, none, some ⟨201, none⟩, ["limit", "page"]⟩),
   (.post, {}), (.put, {})]

/-- The endpoint names each parameter once, and an operation that is no method of an endpoint can
be anything. -/
theorem carts_follow_paths : ∃ g, graph {} carts {} = .ok g ∧
    (g.endpoints.map fun e => (e.1, e.2.methods)) = [("/carts", cartMethods)] ∧
    (∃ raw, Description.entries "paths" (carts.document.get? "paths") = .ok raw ∧
      List.Forall₂ (Endpoint.DescribesEntry carts.document) raw g.endpoints) ∧
    graph {} (carts.amendPaths (amendFields fun t => Table.insert t "patch" (Json.nat 7))
      ["/carts"]) {} = .ok g ∧
    graph {} (carts.amendPaths (amendFields (·.filter fun entry => entry.1 ≠ "summary"))
      ["/carts"]) {} = .ok g := by
  have run : (graph {} carts {}).toOption.map (fun g =>
      g.endpoints.map fun e => (e.1, e.2.methods)) = some [("/carts", cartMethods)] := by
    decide +kernel
  obtain ⟨g, built, methods⟩ := exists_ok_of_map run
  obtain ⟨describes, amended⟩ := graph_follows_paths {} carts {}
  have unique : (definitionsOf carts.document).keys.Nodup := by decide +kernel
  exact ⟨g, built, methods, describes g built,
    (amended "/carts" "patch" _ (by decide) (Json.keepsBut_insert _ _) unique
      (carts_spares _) g).mpr built,
    (amended "/carts" "summary" _ (by decide) (Json.keepsBut_erase _) unique
      (carts_spares _) g).mpr built⟩

/-- A cart that is made of what a path item has for properties. -/
def cartTotals : Description where
  document := .object [("openapi", .string "3.0.0"),
    ("paths", .object [("/carts", .object [
      ("properties", .object [("total", .object [("type", .string "string")])])])]),
    ("components", .object [("schemas", .object [
      ("Cart", .object [("allOf", .array [
        .object [("$ref", .string "#/paths/~1carts")]])])])])]

/-- No reference of the document leads to the entry `properties` of the path item or into it, and
yet the graph is another one without the entry. -/
theorem cartTotals_not_same :
    (∀ raw ∈ cartTotals.document.allRefs, ∀ ref, Reference.ofText raw = .ok ref →
      ¬ ["paths", "/carts", "properties"] <+: ref.fragment.keys) ∧
    "properties" ∉ PathItem.readKeys ∧
    ∃ g g', graph {} cartTotals {} = .ok g ∧
      graph {} (cartTotals.amendPaths
        (amendFields (·.filter fun entry => entry.1 ≠ "properties")) ["/carts"]) {} = .ok g' ∧
      g' ≠ g := by
  have refs : cartTotals.document.allRefs = ["#/paths/~1carts"] := by decide +kernel
  have isItem : Reference.ofText "#/paths/~1carts" = .ok (.inFile (.pointer "/paths/~1carts")) := by
    decide +kernel
  have keys : (Fragment.pointer "/paths/~1carts").keys = ["paths", "/carts"] := by decide +kernel
  have run : (graph {} cartTotals {}).toOption.map (fun g => g.entities.values.map fun e =>
      e.columns.keys) = some [["total"]] := by
    decide +kernel
  have run' : (graph {} (cartTotals.amendPaths
      (amendFields (·.filter fun entry => entry.1 ≠ "properties")) ["/carts"]) {}).toOption.map
        (fun g => g.entities.values.map fun e => e.columns.keys) = some [[]] := by
    decide +kernel
  refine ⟨?_, by decide, ?_⟩
  · intro raw isRef ref isText
    rw [refs, List.mem_singleton] at isRef
    subst isRef
    obtain rfl := Except.ok.inj (isItem.symm.trans isText)
    simp [Reference.fragment, keys]
  · obtain ⟨g, built, columns⟩ := exists_ok_of_map run
    obtain ⟨g', built', columns'⟩ := exists_ok_of_map run'
    refine ⟨g, g', built, built', ?_⟩
    rintro rfl
    rw [columns] at columns'
    cases columns'

end Build

end ApiGraph
