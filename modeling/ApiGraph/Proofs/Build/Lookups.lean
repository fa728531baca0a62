import ApiGraph.Proofs.Build.ForeignKeys
import ApiGraph.Proofs.OpenApi.Fields

/-! The two ways in which a build looks a definition up. By name it takes the reference string as it
stands, and finds the definition in its table. By following it takes the string without the white
space around it, walks the document and reads what it arrives at. The two agree on every string
that does not end in white space (`lookups_agree_iff`). Where one does, as the reference to a
definition whose name ends in white space, the second lookup is for another name (`nameRead`). -/

namespace ApiGraph

namespace Resolver

variable {scope : Scope} {raw : String} {fragment : Fragment}

/-- One step from a local reference loads nothing. -/
theorem run_hop_inFile (r : Resolver) (baseDir : Path) :
    (hop scope ⟨scope.file, baseDir⟩ (.inFile fragment)).run.run r =
      (arrive scope ⟨scope.file, baseDir⟩ (.inFile fragment) scope.file scope.document, r) := by
  have place : (liftM (targetFile r.files ⟨scope.file, baseDir⟩ (.inFile fragment)) :
      ResolveM (Option Path)).run.run r = (.ok scope.file, r) := rfl
  rw [hop, run_get_bind, run_run_bind, place]
  simp only [arrive, inScope_file, ↓reduceIte, pure_bind]
  cases (Reference.inFile fragment).fragment.lookup scope.document <;> rfl

/-- A local reference to nothing fails at once. -/
theorem run_resolveText_missing (read : Reference.ofText raw = .ok (.inFile fragment))
    (missing : fragment.lookup scope.document = none) (r : Resolver) :
    (resolveText scope raw).run.run r =
      (.error (.brokenReference ("#" ++ fragment.text) .noTarget), r) := by
  have arrived : arrive scope ⟨scope.file, scope.baseDir⟩ (.inFile fragment) scope.file
      scope.document = .error (.brokenReference ("#" ++ fragment.text) .noTarget) := by
    simp [arrive, Reference.fragment, missing, Reference.text]
  rw [resolveText, read]
  change (resolve scope (.inFile fragment)).run.run r = _
  rw [resolve, run_get_bind, stepLimit, follow, run_run_bind, run_hop_inFile, arrived]

/-- A local reference to a node that is no reference ends there. -/
theorem run_resolveText_here (read : Reference.ofText raw = .ok (.inFile fragment)) {node : Json}
    (found : fragment.lookup scope.document = some node) (ended : aliasTarget? node = none)
    (r : Resolver) : ∃ t, t.node = node ∧ (resolveText scope raw).run.run r = (.ok t, r) := by
  obtain ⟨t, arrived, isNode⟩ : ∃ t, arrive scope ⟨scope.file, scope.baseDir⟩ (.inFile fragment)
      scope.file scope.document = .ok t ∧ t.node = node := by
    simp [arrive, Reference.fragment, found]
  refine ⟨t, isNode, ?_⟩
  rw [resolveText, read]
  change (resolve scope (.inFile fragment)).run.run r = _
  rw [resolve, run_get_bind, stepLimit, follow, run_run_bind, run_hop_inFile, arrived]
  simp only [isNode, ended, List.not_mem_nil, ↓reduceIte]
  rfl

end Resolver

namespace Build

/-- The name of the definition that a reference stands for when the white space around it does not
count. -/
def nameRead (raw : String) : String :=
  Json.Pointer.keyOf ((Text.trim raw.toList).drop definitionLead.length)

section

variable {raw : String} {segment : List Char}

theorem nameRead_of_segment (whole : raw.toList = definitionLead ++ segment) :
    nameRead raw = Json.Pointer.keyOf (Text.trimEnd segment) := by
  rw [nameRead, trim_of_segment whole, List.drop_left]

theorem endsClean_of_segment (whole : raw.toList = definitionLead ++ segment)
    (filled : segment ≠ []) :
    EndsClean raw ↔ ∀ c ∈ segment.getLast?, Text.isBlank c = false := by
  obtain ⟨front, last, rfl⟩ := (List.eq_nil_or_concat segment).resolve_left filled
  rw [EndsClean, whole]
  simp [List.getLast?_append]

/-- The name comes out the same exactly if nothing is cut off. Unescaping hides no white space: a
key ends in it exactly if its segment does. -/
theorem nameRead_eq_iff (whole : raw.toList = definitionLead ++ segment) (filled : segment ≠ []) :
    nameRead raw = Json.Pointer.keyOf segment ↔ EndsClean raw := by
  rw [endsClean_of_segment whole filled, nameRead_of_segment whole, Json.Pointer.keyOf_eq_iff]
  constructor
  · intro same
    rw [← Json.Pointer.getLast?_unescape_blank, ← same, Json.Pointer.getLast?_unescape_blank]
    exact Text.trimEnd_clean
  · intro clean
    rw [Text.trimEnd_eq_self_iff.mpr clean]

end

variable {source : Source} {owner raw name : String} {schema : Schema}

/-- Following a reference reads the schema at which it ends. -/
theorem State.resolveSchema_of_run {s : State} {t : Resolved} {r : Resolver}
    (run : (Resolver.resolveText source.scope raw).run.run s.resolver = (.ok t, r))
    (isSchema : Schema.ofJson t.node = .ok schema) :
    s.resolveSchema source raw = .ok ((t.name, schema), { s with resolver := r }) := by
  rw [State.resolveSchema, run]
  exact bind_eq_ok.mpr ⟨t, rfl, bind_eq_ok.mpr ⟨schema, mapError_eq_ok.mpr isSchema, rfl⟩⟩

/-- What a reference into the table of definitions is followed to: the definition of the name that
is read from it, and nothing if there is none of that name. -/
theorem resolveSchema_segment (read : source.description.definitions = .ok source.definitions)
    (concrete : ∀ entry ∈ source.definitions, entry.2.ref = none) (filled : source.definitions ≠ [])
    {segment : List Char} (whole : raw.toList = definitionLead ++ segment) (slash : '/' ∉ segment)
    (s : State) :
    match source.definitions.get? (nameRead raw) with
    | some schema => ∃ called, s.resolveSchema source raw = .ok ((called, schema), s)
    | none => ∃ fault, s.resolveSchema source raw = .error fault := by
  have slash := Text.not_mem_trimEnd slash
  have isLocal := ofText_of_segment whole slash
  have inTable : Merge.definitionsOf source.description.document ≠ [] := by
    intro empty
    have keys := Description.keys_definitions read
    rw [empty] at keys
    exact filled (List.map_eq_nil_iff.mp keys)
  have stands : (segmentFragment (Text.trimEnd segment)).lookup source.scope.document = _ :=
    lookup_segmentFragment (Merge.pointer?_of_definitionsOf inTable) slash
  rw [← nameRead_of_segment whole] at stands
  have same := Description.rel_definitions read (nameRead raw)
  rw [← stands] at same
  generalize there : (segmentFragment (Text.trimEnd segment)).lookup source.scope.document = node
    at same
  generalize known : source.definitions.get? (nameRead raw) = found at same
  cases same with
  | none =>
    have fails := Resolver.run_resolveText_missing isLocal there s.resolver
    exact ⟨_, by rw [State.resolveSchema, fails]; rfl⟩
  | some isSchema =>
    have ended := Schema.aliasTarget?_eq_none isSchema
      (concrete _ (Table.mem_of_get?_eq_some known))
    obtain ⟨t, rfl, run⟩ := Resolver.run_resolveText_here isLocal there ended s.resolver
    exact ⟨_, State.resolveSchema_of_run run isSchema⟩

/-- What is found by name is found by following as well, unless the reference ends in white space.
Then the name that is followed is another one, and the two lookups come to the same schema exactly
if it stands under that name too. -/
theorem lookups_agree_iff (read : source.description.definitions = .ok source.definitions)
    (concrete : ∀ entry ∈ source.definitions, entry.2.ref = none)
    (found : source.definition owner raw = .ok (name, schema)) (s : State) :
    (EndsClean raw → ∃ called, s.resolveSchema source raw = .ok ((called, schema), s)) ∧
    (nameRead raw = name ↔ EndsClean raw) ∧
    ((∃ called s', s.resolveSchema source raw = .ok ((called, schema), s')) ↔
      source.definitions.get? (nameRead raw) = some schema) := by
  obtain ⟨named, defined⟩ := definition_eq_ok.mp found
  have filled : source.definitions ≠ [] := List.ne_nil_of_mem (Table.mem_of_get?_eq_some defined)
  obtain ⟨segment, whole, ends, slash, rfl⟩ := definitionName?_eq_some_iff.mp named
  have follows := resolveSchema_segment read concrete filled whole slash s
  have sameName := nameRead_eq_iff whole ends
  refine ⟨?_, sameName, ?_⟩
  · intro clean
    rw [sameName.mpr clean, defined] at follows
    exact follows
  · cases known : source.definitions.get? (nameRead raw) with
    | none =>
      rw [known] at follows
      obtain ⟨fault, fails⟩ := follows
      simp [fails]
    | some other =>
      rw [known] at follows
      obtain ⟨called, ok⟩ := follows
      simp [ok]

/-- A cart with a slash in its name, and a pet with white space at the end of its name. -/
def stall : Source where
  description := { document := .object [("components", .object [("schemas", .object [
    ("v1/Cart", .object [("type", .string "object")]),
    ("Pet ", .object [("type", .string "string")])])])] }
  definitions := [("v1/Cart", { type := some "object" }), ("Pet ", { type := some "string" })]
  options := {}

/-- The cart is found by name and by following, with the slash in its name escaped. -/
theorem stall_lookups_agree : stall.description.definitions = .ok stall.definitions ∧
    (∀ entry ∈ stall.definitions, entry.2.ref = none) ∧
    stall.definition "Order.cart" "#/components/schemas/v1~1Cart" =
      .ok ("v1/Cart", { type := some "object" }) ∧
    EndsClean "#/components/schemas/v1~1Cart" ∧
    ∃ called, State.resolveSchema stall { resolver := Resolver.fresh {} }
      "#/components/schemas/v1~1Cart" =
        .ok ((called, { type := some "object" }), { resolver := Resolver.fresh {} }) := by
  have read : stall.description.definitions = .ok stall.definitions := rfl
  have concrete : ∀ entry ∈ stall.definitions, entry.2.ref = none := by simp [stall]
  have found : stall.definition "Order.cart" "#/components/schemas/v1~1Cart" =
      .ok ("v1/Cart", { type := some "object" }) := definition_eq_ok.mpr ⟨by decide, rfl⟩
  have clean : EndsClean "#/components/schemas/v1~1Cart" := by decide
  exact ⟨read, concrete, found, clean,
    (lookups_agree_iff read concrete found { resolver := Resolver.fresh {} }).1 clean⟩

/-- The pet is found by name, and not by following. -/
theorem pet_not_followed : stall.description.definitions = .ok stall.definitions ∧
    (∀ entry ∈ stall.definitions, entry.2.ref = none) ∧
    stall.definition "Order.pet" "#/components/schemas/Pet " =
      .ok ("Pet ", { type := some "string" }) ∧
    ∃ fault, State.resolveSchema stall { resolver := Resolver.fresh {} }
      "#/components/schemas/Pet " = .error fault := by
  have concrete : ∀ entry ∈ stall.definitions, entry.2.ref = none := by simp [stall]
  have whole : "#/components/schemas/Pet ".toList = definitionLead ++ "Pet ".toList := rfl
  have follows := @resolveSchema_segment stall _ rfl concrete (by simp [stall]) _ whole (by decide)
    { resolver := Resolver.fresh {} }
  exact ⟨rfl, concrete, definition_eq_ok.mpr ⟨by decide, rfl⟩, follows⟩

end Build

end ApiGraph
