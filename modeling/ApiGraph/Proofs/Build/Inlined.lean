import ApiGraph.Proofs.Build.PathItems
import ApiGraph.Proofs.Endpoint.Inlined

/-! Builds of a description in which a component stands in the place of a reference to it. The
reader of endpoints follows one reference only, so the graph is the same one if what stands at its
end is of the same use as what all references lead to (`graph_inlined`). This is so if there are no
further references, and with a further one a query parameter can be lost (`sizes_not_inlined`). -/

namespace ApiGraph.Build

/-- A component of a path item or of one of its operations that is a reference, with what local
references lead to in the end. -/
structure RefersTo (document : Json) (kind : ComponentKind) (path : String) (way : List String)
    (raw : String) (final : Json) (meant : kind.Component) : Prop where
  stands : ∃ items fields node c, Description.entries "paths" (document.get? "paths") = .ok items ∧
    Table.get? items path = some (.object fields) ∧ PathItem.Has fields kind way node ∧
    kind.read node = .ok c ∧ kind.ref c = some raw
  leads : Endpoint.LeadsTo document kind.read kind.ref raw final meant

variable {files : FileTree} {d : Description} {options : Options} {kind : ComponentKind}
  {path raw : String} {way : List String} {final : Json} {meant : kind.Component}

theorem unrepeated_item {document item : Json} {items : Table Json} (unrepeated : document.Unrepeated)
    (isTable : Description.entries "paths" (document.get? "paths") = .ok items)
    (isItem : Table.get? items path = some item) : item.Unrepeated := by
  cases isPaths : document.get? "paths" with
  | none =>
    rw [isPaths] at isTable
    cases isTable
    cases isItem
  | some j =>
    rw [isPaths] at isTable
    cases document with
    | object fields =>
      have whole := unrepeated.get? isPaths
      cases j with
      | object fields =>
        cases isTable
        exact whole.get? isItem
      | _ => cases isTable
    | _ => cases isPaths

/-- Where nothing is read through references, these lead to the same records. -/
theorem sameRecord_amendPaths {change : Json → Json} {place : List String}
    (spares : Spares files d ("paths" :: place)) {paths : Table PathItem}
    (areItems : d.paths = .ok paths) : ∀ entry ∈ Endpoint.soughtRefs paths,
      Endpoint.SameRecord d.document (d.amendPaths change place).document entry.1 entry.2 := by
  intro entry sought f node isLocal stands
  refine Record.Resembles.exists_of_rel (Description.lookup_amendPaths
    (Reference.fragment_written isLocal) ?_) stands
  exact spares _ f (.component areItems sought isLocal)

/-- The path items are read again, and their operations contribute the same. -/
theorem exists_paths_inlined (unrepeated : d.document.Unrepeated)
    (refers : RefersTo d.document kind path way raw final meant)
    (spares : Spares files d ("paths" :: path :: way)) (entities : Table Entity)
    {paths : Table PathItem} (areItems : d.paths = .ok paths)
    (same : (kind.fieldNames, raw) ∈ Endpoint.soughtRefs paths →
      kind.SameUse d.document raw meant) :
    ∃ paths', (d.amendPaths (fun _ => final) (path :: way)).paths = .ok paths' ∧
      List.Forall₂ (Endpoint.ItemAlike d.document
        (d.amendPaths (fun _ => final) (path :: way)).document entities entities) paths paths' := by
  obtain ⟨items, fields, node, c, isTable, isItem, has, isComponent, isRef⟩ := refers.stands
  obtain ⟨isFinal, proper⟩ := refers.leads.proper
  have records := @sameRecord_amendPaths _ _ (fun _ => final) _ spares _ areItems
  have read := areItems
  rw [Description.paths, isTable] at read
  have listed : ∀ name j item, (name, j) ∈ items → PathItem.ofJson j = .ok item →
      Endpoint.soughtRefs [(name, item)] ⊆ Endpoint.soughtRefs paths :=
    fun name j item member isRead =>
      Endpoint.soughtRefs_subset (Description.mem_readEntries read member isRead)
  rw [Description.paths, Description.entries_amendPaths, isTable]
  have amended := (List.forall₂_and_left _ _).mpr
    ⟨fun _ => id, Table.forall₂_amend items path (Json.amendPath (fun _ => final) way)⟩
  refine Description.exists_readEntries (amended.imp ?_) read
  rintro ⟨name, j⟩ ⟨name', j'⟩ ⟨member, sameName, sameValue | ⟨isPath, isOld, isNew⟩⟩
  · refine ⟨sameName, fun item isRead => ⟨item, sameValue ▸ isRead, ?_⟩⟩
    exact Endpoint.itemAlike_of_sameRecord (fun _ => rfl) (.refl item)
      fun entry sought => records entry (listed name j item member isRead sought)
  · refine ⟨sameName, fun item isRead => ?_⟩
    obtain rfl : name = path := isPath
    obtain rfl : Json.object fields = j := Option.some.inj (isItem.symm.trans isOld)
    have seen := listed name _ item member isRead
    obtain ⟨item', isRead', isAlike⟩ := has.exists_itemAlike
      (unrepeated_item unrepeated isTable isItem) isRead isComponent isRef isFinal
      (fun entry sought => records entry (seen sought))
      (fun sought _ => ComponentKind.contribute_of_sameUse isRef proper
        (same (seen sought)))
    exact ⟨item', isNew ▸ isRead', isAlike⟩

/-- The component that the references lead to can stand in the place of the reference, unless it is
of another use than what the reference leads to in one step. -/
theorem graph_inlined (unrepeated : d.document.Unrepeated)
    (refers : RefersTo d.document kind path way raw final meant)
    (spares : Spares files d ("paths" :: path :: way))
    (same : ∀ paths, d.paths = .ok paths → (kind.fieldNames, raw) ∈ Endpoint.soughtRefs paths →
      kind.SameUse d.document raw meant) {g : Graph} (built : graph files d options = .ok g) :
    graph files (d.amendPaths (fun _ => final) (path :: way)) options = .ok g := by
  have besides : SameBesides files d (d.amendPaths (fun _ => final) (path :: way)) :=
    sameBesides_amendPaths spares fun f => Description.lookup_amendPaths
  refine graph_of_besides besides (Merge.unrepeated_definitions unrepeated).1 ?_ g built
  exact fun entities paths areItems =>
    exists_paths_inlined unrepeated refers spares entities areItems (same paths areItems)

/-- A query parameter that limits how many carts are listed. -/
def limit : Json := .object [("name", .string "limit"), ("in", .string "query")]

/-- A list of carts can be limited by the component or by what stands for it. -/
theorem carts_inlined : ∃ g, graph {} carts {} = .ok g ∧
    graph {} (carts.amendPaths (fun _ => limit) ["/carts", "parameters", "0"]) {} = .ok g := by
  have run : (graph {} carts {}).toOption.map (fun _ => ()) = some () := by decide +kernel
  have isLocal : Reference.ofText "#/components/parameters/Limit" =
      .ok (.inFile (.pointer "/components/parameters/Limit")) := by
    decide +kernel
  have stands : (Fragment.pointer "/components/parameters/Limit").lookup carts.document =
      some limit := rfl
  obtain ⟨g, built, _⟩ := exists_ok_of_map run
  refine ⟨g, built, @graph_inlined {} carts {} .parameter "/carts" _ ["parameters", "0"] limit
    { name := "limit", location := "query" } (Json.unrepeated_settled carts.document)
    ⟨⟨_, _, _, { ref := some "#/components/parameters/Limit" }, rfl, rfl,
      .parameter rfl rfl rfl, rfl, rfl⟩, .here isLocal stands rfl rfl⟩
    (carts_spares _) (fun _ _ _ => ComponentKind.sameUse_of_direct isLocal stands rfl) g built⟩

/-- Carts are limited by a component that is a reference itself. -/
def sizes : Description where
  document := .object [("openapi", .string "3.0.0"),
    ("paths", .object [("/carts", .object [
      ("get", .object [
        ("parameters", .array [.object [("$ref", .string "#/components/parameters/Size")]]),
        ("responses", .object [("200", .object [("description", .string "ok")])])])])]),
    ("components", .object [("parameters", .object [
      ("Size", .object [("$ref", .string "#/components/parameters/Limit")]),
      ("Limit", limit)])])]

/-- The name of the parameter is lost, and is there if the parameter stands in the place of the
reference. -/
theorem sizes_not_inlined :
    RefersTo sizes.document .parameter "/carts" ["get", "parameters", "0"]
      "#/components/parameters/Size" limit { name := "limit", location := "query" } ∧
    ∃ g g', graph {} sizes {} = .ok g ∧
      graph {} (sizes.amendPaths (fun _ => limit) ["/carts", "get", "parameters", "0"]) {} =
        .ok g' ∧ g'.endpoints ≠ g.endpoints := by
  have run : (graph {} sizes {}).toOption.map (fun g => g.endpoints.map fun e =>
      e.2.methods.map fun m => m.2.queryParams) = some [[[], [], [], []]] := by
    decide +kernel
  have run' : (graph {} (sizes.amendPaths (fun _ => limit)
      ["/carts", "get", "parameters", "0"]) {}).toOption.map (fun g => g.endpoints.map fun e =>
        e.2.methods.map fun m => m.2.queryParams) = some [[[], ["limit"], [], []]] := by
    decide +kernel
  have isSize : Reference.ofText "#/components/parameters/Size" =
      .ok (.inFile (.pointer "/components/parameters/Size")) := by
    decide +kernel
  have isLimit : Reference.ofText "#/components/parameters/Limit" =
      .ok (.inFile (.pointer "/components/parameters/Limit")) := by
    decide +kernel
  refine ⟨⟨⟨_, _, .object [("$ref", .string "#/components/parameters/Size")],
    { ref := some "#/components/parameters/Size" }, rfl, rfl, ?_, rfl, rfl⟩, ?_⟩, ?_⟩
  · exact .operation (m := .get) rfl (.parameter (.entry (by decide) rfl) rfl rfl)
  · exact .onward isSize rfl rfl rfl (.here isLimit rfl rfl rfl)
  · obtain ⟨g, built, named⟩ := exists_ok_of_map run
    obtain ⟨g', built', named'⟩ := exists_ok_of_map run'
    refine ⟨g, g', built, built', fun same => ?_⟩
    rw [← same, named'] at named
    cases named

end ApiGraph.Build
