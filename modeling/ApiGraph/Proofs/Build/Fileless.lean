import ApiGraph.Proofs.Build.Effects
import ApiGraph.Proofs.Merge.Idempotence
import ApiGraph.Proofs.OpenApi.Fields
import ApiGraph.Proofs.Resolver.Inside

/-! Building without files. The one thing that a build may need files for are the members of
definitions that are references. If none of the strings that it comes upon there leads to a file,
the build comes to the same on all file systems and loads nothing. In a merged document only such
strings can lead to a file that a walk does not see: those below a key `$ref` that holds no string,
and the first items of members that are written as lists. A build that succeeds anywhere is the same
everywhere exactly if none of them is come upon (`graph_same_iff`). -/

namespace ApiGraph.Build

open Resolver (Asks Keeps LeadsOut Reads StaysInside fresh outcomeOf resolveText)

/-- A string that a build comes upon for a member of a definition. -/
def Asked (d : Description) (raw : String) : Prop :=
  ∃ definitions, d.definitions = .ok definitions ∧ ∃ m ∈ members definitions, ∃ ref,
    m.member.ref = some ref ∧ Asks d.document ref raw

/-- No string that a build comes upon leads to a file. -/
def Confined (d : Description) : Prop := ∀ raw, Asked d raw → ¬ LeadsOut raw

/-- The references of members that are written as lists of fields. -/
def listedRefs (definition : Json) : List String :=
  (Schema.memberNodes definition).filterMap fun
    | .array (.string raw :: _) => some raw
    | _ => none

/-! A step that has nothing to do with the resolver. -/

/-- With the second resolver in place of the first one, the step does the same, and it leaves the
resolver as it is. -/
def Untouched (r r' : Resolver) (step : State → Except Fault State) : Prop :=
  ∀ s, s.resolver = r → step (s.withResolver r') = (step s).map (·.withResolver r') ∧
    ∀ t, step s = .ok t → t.resolver = r

namespace Untouched

variable {r r' : Resolver} {α : Type}

theorem error (fault : Fault) : Untouched r r' fun _ => .error fault :=
  fun s _ => ⟨rfl, by simp⟩

theorem ok {change : State → State} (same : ∀ s, change (s.withResolver r') =
      (change s).withResolver r') (kept : ∀ s, (change s).resolver = s.resolver) :
    Untouched r r' fun s => .ok (change s) := by
  intro s isFirst
  refine ⟨congrArg Except.ok (same s), ?_⟩
  rintro t ⟨⟩
  rw [kept, isFirst]

theorem bind {first later : State → Except Fault State} (h : Untouched r r' first)
    (h' : Untouched r r' later) : Untouched r r' fun s => first s >>= later := by
  intro s isFirst
  obtain ⟨same, kept⟩ := h s isFirst
  dsimp only
  rw [same]
  cases run : first s with
  | error fault => exact ⟨rfl, by simp [error_bind]⟩
  | ok t => exact h' t (kept t run)

/-- What is read besides the resolver is the same. -/
theorem read_bind {look : State → Except Fault α} {later : α → State → Except Fault State}
    (same : ∀ s, look (s.withResolver r') = look s) (h : ∀ a, Untouched r r' (later a)) :
    Untouched r r' fun s => look s >>= fun a => later a s := by
  intro s isFirst
  dsimp only
  rw [same]
  cases look s with
  | error fault => exact ⟨rfl, by simp [error_bind]⟩
  | ok a => exact h a s isFirst

theorem foldlM {step : State → α → Except Fault State} {as : List α}
    (each : ∀ a ∈ as, Untouched r r' fun s => step s a) :
    Untouched r r' fun s => as.foldlM step s := by
  induction as with
  | nil => exact ok (fun _ => rfl) fun _ => rfl
  | cons a rest ih =>
    simp only [List.foldlM_cons]
    exact (each a (by simp)).bind (ih fun b member => each b (by simp [member]))

end Untouched

section

variable {r r' : Resolver} {source : Source}

theorem untouched_modifyEntity (name : String) (change : Entity → Entity) :
    Untouched r r' fun s => s.modifyEntity name change :=
  Untouched.read_bind (fun _ => rfl) fun _ => Untouched.ok (fun _ => rfl) fun _ => rfl

theorem untouched_createEntity (definition : String × Schema) :
    Untouched r r' fun s => createEntity source s definition := by
  simp only [createEntity_eq]
  exact Untouched.read_bind (fun _ => rfl) fun _ => Untouched.ok (fun _ => rfl) fun _ => rfl

theorem untouched_place (l : Link) : Untouched r r' l.place := by
  apply Untouched.read_bind (fun _ => rfl)
  intro e
  apply Untouched.read_bind (fun _ => rfl)
  intro f
  apply Untouched.read_bind (fun _ => rfl)
  intro p
  have recorded : Untouched r r' fun s => .ok { p.keys.foldl State.deferKey s with
      joinTables := Link.putJoinTable (p.keys.foldl State.deferKey s).joinTables p.joinTable } := by
    simp only [deferKey_foldl]
    exact Untouched.ok (fun _ => rfl) fun _ => rfl
  by_cases adds : l.addsRelationship = true
  · simp only [adds, ↓reduceIte]
    exact recorded.bind (untouched_modifyEntity _ _)
  · simp only [adds, Bool.false_eq_true, ↓reduceIte]
    exact recorded

theorem untouched_expand (a : Alternative) : Untouched r r' fun s => a.expand source s := by
  simp only [Alternative.expand]
  cases a.schema.primitive with
  | some primitive => exact untouched_modifyEntity _ _
  | none =>
    cases a.mention? with
    | some m => exact Untouched.read_bind (fun _ => rfl) untouched_place
    | none => exact Untouched.error _

theorem untouched_mention (m : Mention) : Untouched r r' fun s => m.place source s :=
  Untouched.read_bind (fun _ => rfl) untouched_place

theorem untouched_bindKey (key : PendingKey) : Untouched r r' fun s => bindKey s key := by
  intro s isFirst
  have entities : (s.withResolver r').entities = s.entities := rfl
  have joinTables : (s.withResolver r').joinTables = s.joinTables := rfl
  simp only [bindKey, entities, joinTables]
  cases s.entities.get? key.target with
  | none => exact Untouched.error _ s isFirst
  | some target =>
    cases key.owner with
    | entity name => exact untouched_modifyEntity name _ s isFirst
    | joinTable name =>
      simp only
      cases s.joinTables.get? name with
      | none => exact Untouched.error _ s isFirst
      | some t =>
        refine ⟨rfl, ?_⟩
        rintro _ ⟨⟩
        exact isFirst

theorem untouched_bindKeys : Untouched r r' bindKeys := by
  intro s isFirst
  exact Untouched.foldlM (fun key _ => untouched_bindKey key) { s with pending := [] } isFirst

/-- A member whose reference is resolved without the resolver taking note of it. -/
theorem untouched_includeMember {name : String} {schema member : Schema}
    (resolves : ∀ ref, member.ref = some ref → ∃ result,
      (resolveText source.scope ref).run.run r = (result, r) ∧
      (resolveText source.scope ref).run.run r' = (result, r')) :
    Untouched r r' fun s => includeMember source name schema s member := by
  intro s isFirst
  subst isFirst
  simp only [includeMember]
  cases isRef : member.ref with
  | none => exact untouched_modifyEntity name _ s rfl
  | some ref =>
    obtain ⟨result, first, second⟩ := resolves ref isRef
    have resolver : (s.withResolver r').resolver = r' := rfl
    simp only [State.resolveSchema, first, second, resolver]
    cases result with
    | error fault => exact Untouched.error fault s rfl
    | ok t =>
      simp only [ok_bind]
      cases (Schema.ofJson t.node).mapError (Fault.malformed (.definition t.name)) with
      | error fault => exact Untouched.error fault s rfl
      | ok target => exact untouched_modifyEntity name _ s rfl

theorem untouched_tables (resolves : ∀ m ∈ members source.definitions, ∀ ref,
      m.member.ref = some ref → ∃ result,
        (resolveText source.scope ref).run.run r = (result, r) ∧
        (resolveText source.scope ref).run.run r' = (result, r')) :
    Untouched r r' (tables source) := by
  have included : Untouched r r' (includeMembers source) := by
    intro s isFirst
    rw [includeMembers_eq, includeMembers_eq]
    exact Untouched.foldlM (fun m isMember => untouched_includeMember (resolves m isMember)) s
      isFirst
  exact (Untouched.foldlM fun definition _ => untouched_createEntity definition).bind
    (included.bind ((Untouched.foldlM fun a _ => untouched_expand a).bind
      ((Untouched.foldlM fun m _ => untouched_mention m).bind untouched_bindKeys)))

end

/-! What a build loads. -/

/-- A resolver that has read nothing is as it was in the beginning. -/
theorem eq_fresh_of_keeps {files : FileTree} {r : Resolver} (h : Keeps files r []) :
    r = fresh files := by
  have same := h.consistent.same
  have empty : r.cache = [] := by
    have none : Table.keys r.cache = [] := by
      rw [List.eq_nil_iff_forall_not_mem]
      simp [h.mem_keys]
    exact List.map_eq_nil_iff.mp none
  obtain ⟨files', cache, links, isLinks⟩ := r
  cases same
  cases empty
  cases isLinks
  rfl

variable {d : Description} {source : Source} {options : Options}

theorem source_eq_ok (h : Source.of d options = .ok source) : ∃ definitions,
    d.definitions = .ok definitions ∧ source = { description := d, definitions, options } := by
  obtain ⟨definitions, read, h⟩ := bind_eq_ok.mp h
  cases h
  exact ⟨definitions, read, rfl⟩

/-- If no string leads to a file, no member is resolved by loading one. -/
theorem resolveText_confined (confined : Confined d) (isSource : Source.of d options = .ok source)
    (files : FileTree) {m : Member} (isMember : m ∈ members source.definitions) {raw : String}
    (isRef : m.member.ref = some raw) :
    (resolveText source.scope raw).run.run (fresh files) =
      (outcomeOf {} source.scope raw, fresh files) := by
  obtain ⟨definitions, read, rfl⟩ := source_eq_ok isSource
  have inside : StaysInside (Source.scope ⟨d, definitions, options⟩).document raw :=
    fun last asks => confined last ⟨definitions, read, m, isMember, raw, isRef, asks⟩
  rw [resolveText, outcomeOf]
  cases readRef : Reference.ofText raw with
  | error fault => rfl
  | ok ref =>
    obtain ⟨_, reads⟩ := Resolver.resolve_inside files readRef inside
    obtain ⟨r, run, keeps⟩ := reads [] _ (Resolver.keeps_fresh files)
    rw [eq_fresh_of_keeps keeps] at run
    exact run

theorem untouched_of_confined (confined : Confined d) (isSource : Source.of d options = .ok source)
    (files files' : FileTree) : Untouched (fresh files) (fresh files') (tables source) :=
  untouched_tables fun _ isMember _ isRef =>
    ⟨_, resolveText_confined confined isSource files isMember isRef,
      resolveText_confined confined isSource files' isMember isRef⟩

/-- If no string leads to a file, the files do not count. -/
theorem graph_confined (confined : Confined d) (files files' : FileTree) (options : Options) :
    graph files d options = graph files' d options := by
  rw [graph, graph]
  cases checkVersion d with
  | error fault => rfl
  | ok _ =>
    cases isSource : Source.of d options with
    | error fault => rfl
    | ok source =>
      obtain ⟨same, _⟩ :=
        untouched_of_confined confined isSource files files' { resolver := fresh files } rfl
      have start : State.withResolver { resolver := fresh files } (fresh files') =
        { resolver := fresh files' } := rfl
      rw [start] at same
      simp only [ok_bind, same]
      cases tables source { resolver := fresh files } with
      | error fault => rfl
      | ok s => rfl

/-! Where the strings stand. -/

theorem allRefs_item {items : List Json} {j : Json} (member : j ∈ items) :
    j.allRefs ⊆ (Json.array items).allRefs := by
  rw [Json.allRefs, Json.allRefsItems_eq]
  exact fun raw held => List.mem_flatMap.mpr ⟨j, member, held⟩

/-- The values that members are read from stand in the definition. -/
theorem allRefs_memberNode {node j : Json} (member : j ∈ Schema.memberNodes node) :
    j.allRefs ⊆ node.allRefs := by
  rw [Schema.memberNodes] at member
  split at member
  · rename_i nodes found
    refine List.Subset.trans (allRefs_item member) ?_
    cases node with
    | object fields => exact Json.allRefs_get? found
    | array items => exact allRefs_item (List.of_mem_zip (Table.mem_of_get?_eq_some found)).2
    | _ => cases found
  · cases member

/-- The reference of a schema is a reference string of its value, unless that is a list. -/
theorem mem_allRefs_of_ref {j : Json} {schema : Schema} (read : Schema.ofJson j = .ok schema)
    {raw : String} (isRef : schema.ref = some raw) :
    raw ∈ j.allRefs ∨ ∃ rest, j = .array (.string raw :: rest) := by
  have held := Schema.field?_of_ref read isRef
  cases j with
  | object fields =>
    have isAlias : aliasTarget? (.object fields) = some raw := by
      have found : Table.get? fields refKey = some (.string raw) := held
      rw [Json.aliasTarget?_object, found]
      rfl
    exact Or.inl ((Json.mem_allRefs _).mpr (Or.inl (Json.mem_refs_of_aliasTarget? isAlias)))
  | array items =>
    cases items with
    | nil => cases held
    | cons first rest =>
      have same : some first = some (.string raw) := held
      rw [Option.some.inj same]
      exact Or.inr ⟨rest, rfl⟩
  | _ => cases held

/-- If all definitions can be read, none of them is a string, and so everything in them is in the
document. -/
theorem allRefs_definition {definitions : Table Schema} (read : d.definitions = .ok definitions)
    {name : String} {node : Json} (member : (name, node) ∈ Merge.definitionsOf d.document) :
    node.allRefs ⊆ d.document.allRefs := by
  have readAll := Description.mapM_of_definitions read
  have noAlias : aliasTarget? (.object (Merge.definitionsOf d.document)) = none := by
    rw [Json.aliasTarget?_object]
    cases held : Table.get? (Merge.definitionsOf d.document) refKey with
    | none => rfl
    | some j =>
      cases j with
      | string raw =>
        obtain ⟨schema, _, readEntry⟩ := exists_of_mem_mapM readAll (Table.mem_of_get?_eq_some held)
        cases (Description.readEntry_eq_ok.mp readEntry).2
      | _ => rfl
  have inTable : node.allRefs ⊆ (Json.object (Merge.definitionsOf d.document)).allRefs := by
    intro raw held
    rw [Json.allRefs_object, noAlias]
    simp only [Option.toList_none, List.nil_append, List.mem_flatMap]
    exact ⟨_, member, by simpa using held⟩
  refine List.Subset.trans inTable ?_
  cases found : d.document.pointer? definitionsPointer.toList with
  | none => simp [Merge.definitionsOf, found] at member
  | some table =>
    cases table with
    | object fields =>
      have same : Merge.definitionsOf d.document = fields := by
        rw [Merge.definitionsOf, found]
        rfl
      rw [same]
      have place : Fragment.lookup d.document (.pointer definitionsPointer) =
        some (.object fields) := found
      exact Json.allRefs_lookup place
    | _ => simp [Merge.definitionsOf, found, Json.fields?] at member

/-- A string that is come upon stands in the document, or is the first item of a member. -/
theorem Asked.place {raw : String} (h : Asked d raw) : raw ∈ d.document.allRefs ∨
    ∃ entry ∈ Merge.definitionsOf d.document, raw ∈ listedRefs entry.2 := by
  obtain ⟨definitions, read, m, isMember, ref, isRef, asks⟩ := h
  rcases asks.mem_allRefs with rfl | held
  · obtain ⟨⟨name, schema⟩, inTable, made⟩ := List.mem_flatMap.mp isMember
    obtain ⟨member, inList, rfl⟩ := List.mem_map.mp made
    obtain ⟨node, stands, readNode⟩ := Description.exists_node read inTable
    obtain ⟨j, inNode, readMember⟩ := Schema.exists_memberNode readNode inList
    rcases mem_allRefs_of_ref readMember isRef with held | ⟨rest, rfl⟩
    · exact Or.inl (allRefs_definition read stands (allRefs_memberNode inNode held))
    · exact Or.inr ⟨_, stands, List.mem_filterMap.mpr ⟨_, inNode, rfl⟩⟩
  · exact Or.inl held

/-- After a merge, what is come upon and leads to a file is something that a walk does not see. -/
theorem Asked.unseen {files : FileTree} {document : Json} {file : Option Path} {baseDir : Path}
    {m : Merged} (merged : Merge.result files document file baseDir = .ok m) {raw : String}
    (h : Asked ⟨m.document, m.path⟩ raw) (out : LeadsOut raw) : raw ∈ m.document.hiddenRefs ∨
      ∃ entry ∈ Merge.definitionsOf m.document, raw ∈ listedRefs entry.2 := by
  rcases h.place with held | listed
  · refine Or.inl (((Json.mem_allRefs _).mp held).resolve_left fun seen => ?_)
    obtain ⟨_, targets, names, account⟩ := Merge.account_of_ok merged
    rcases account.mem_refs.mp seen with ⟨before, met, rfl⟩ | ⟨t, isTarget, _, before, met, rfl⟩
    · exact Resolver.not_leadsOut_of_local
        (Merge.isLocalText_localForm (account.settledRoot before met)) out
    · exact Resolver.not_leadsOut_of_local
        (Merge.isLocalText_localForm (account.settledTargets t isTarget before met)) out
  · exact Or.inr listed

/-! A build without any files. -/

/-- A member that was included was resolved. -/
theorem resolved_of_includeMember {files : FileTree} {s t : State} {name : String}
    {schema member : Schema} (consistent : Resolver.Consistent files s.resolver)
    (run : includeMember source name schema s member = .ok t) : Resolver.Consistent files t.resolver ∧
      ∀ ref, member.ref = some ref → ∃ target, outcomeOf files source.scope ref = .ok target := by
  have changed : ∀ {s' : State} {name change}, Resolver.Consistent files s'.resolver →
      s'.modifyEntity name change = .ok t → Resolver.Consistent files t.resolver := by
    intro s' name change consistent run
    obtain ⟨e, _, run⟩ := bind_eq_ok.mp run
    cases run
    exact consistent
  simp only [includeMember] at run
  cases isRef : member.ref with
  | none =>
    rw [isRef] at run
    exact ⟨changed consistent run, by simp⟩
  | some ref =>
    rw [isRef] at run
    obtain ⟨r, resolves, consistent'⟩ :=
      @Resolver.yields_resolveText _ source.scope _ consistent ref
    simp only [State.resolveSchema, resolves] at run
    cases found : outcomeOf files source.scope ref with
    | error fault =>
      rw [found] at run
      cases run
    | ok target =>
      rw [found, ok_bind] at run
      cases readTarget : (Schema.ofJson target.node).mapError
          (Fault.malformed (.definition target.name)) with
      | error fault =>
        rw [readTarget] at run
        cases run
      | ok included =>
        rw [readTarget] at run
        refine ⟨@changed (s.withResolver r) _ _ consistent' run, ?_⟩
        rintro _ ⟨⟩
        exact ⟨target, found⟩

theorem resolved_of_foldlM {files : FileTree} {ms : List Member} {s t : State}
    (consistent : Resolver.Consistent files s.resolver)
    (run : ms.foldlM (fun s m => includeMember source m.name m.schema s m.member) s = .ok t) :
    ∀ m ∈ ms, ∀ ref, m.member.ref = some ref →
      ∃ target, outcomeOf files source.scope ref = .ok target := by
  induction ms generalizing s with
  | nil => simp
  | cons m rest ih =>
    rw [List.foldlM_cons] at run
    obtain ⟨s', first, later⟩ := bind_eq_ok.mp run
    obtain ⟨consistent', here⟩ := resolved_of_includeMember consistent first
    exact List.forall_mem_cons.mpr ⟨here, ih consistent' later⟩

/-- If the build succeeds without any files, what it came upon stays inside. -/
theorem confined_of_graph {g : Graph} (placed : ∀ p, d.path = some p → p.normal ≠ ⟨"/"⟩)
    (built : graph {} d options = .ok g) : Confined d := by
  rw [graph] at built
  obtain ⟨_, _, built⟩ := bind_eq_ok.mp built
  obtain ⟨source, isSource, built⟩ := bind_eq_ok.mp built
  obtain ⟨s, isTables, _⟩ := bind_eq_ok.mp built
  obtain ⟨created, isCreated, isTables⟩ := bind_eq_ok.mp isTables
  obtain ⟨included, isIncluded, _⟩ := bind_eq_ok.mp isTables
  have creates : Untouched (fresh {}) (fresh {}) (createEntities source) :=
    Untouched.foldlM fun definition _ => untouched_createEntity definition
  have resolver : created.resolver = fresh {} := (creates _ rfl).2 _ isCreated
  rw [includeMembers_eq] at isIncluded
  have resolved := resolved_of_foldlM (resolver ▸ Resolver.consistent_fresh {}) isIncluded
  obtain ⟨definitions, read, rfl⟩ := source_eq_ok isSource
  rintro raw ⟨definitions', read', m, isMember, ref, isRef, asks⟩
  rw [read] at read'
  cases read'
  obtain ⟨target, found⟩ := resolved m isMember ref isRef
  obtain ⟨first, isFirst, ended⟩ := bind_eq_ok.mp found
  obtain ⟨_, follows, _⟩ := Resolver.reads_resolve {} (Source.scope ⟨d, definitions, options⟩) first
  rw [ended] at follows
  exact follows.staysInside placed rfl isFirst raw asks

/-- **Building a merged document needs files only for what a merge does not see.** What a build
comes upon and leads to a file stands below a key `$ref` that holds no string, or is the first item
of a member that is written as a list. If there is no such string, no member is resolved by loading
a file, and the build comes to the same on all file systems. A build that succeeds on some file
system comes to the same on all of them in no other case. -/
theorem graph_same_iff {files₀ : FileTree} {document : Json} {file : Option Path} {baseDir : Path}
    {m : Merged} (merged : Merge.result files₀ document file baseDir = .ok m)
    (placed : ∀ p, m.path = some p → p.normal ≠ ⟨"/"⟩) (options : Options) :
    (∀ raw, Asked ⟨m.document, m.path⟩ raw → LeadsOut raw → raw ∈ m.document.hiddenRefs ∨
      ∃ entry ∈ Merge.definitionsOf m.document, raw ∈ listedRefs entry.2) ∧
    (Confined ⟨m.document, m.path⟩ →
      (∀ files files', graph files ⟨m.document, m.path⟩ options =
        graph files' ⟨m.document, m.path⟩ options) ∧
      ∀ files source, Source.of ⟨m.document, m.path⟩ options = .ok source →
        (∀ member ∈ members source.definitions, ∀ raw, member.member.ref = some raw →
          ((resolveText source.scope raw).run.run (fresh files)).2 = fresh files) ∧
        ∀ s, tables source { resolver := fresh files } = .ok s → s.resolver = fresh files) ∧
    ((∃ files g, graph files ⟨m.document, m.path⟩ options = .ok g) →
      ((∀ files files', graph files ⟨m.document, m.path⟩ options =
        graph files' ⟨m.document, m.path⟩ options) ↔ Confined ⟨m.document, m.path⟩)) := by
  refine ⟨fun raw asked out => asked.unseen merged out, fun confined => ⟨?_, ?_⟩, ?_⟩
  · exact fun files files' => graph_confined confined files files' options
  · intro files source isSource
    constructor
    · intro member isMember raw isRef
      rw [resolveText_confined confined isSource files isMember isRef]
    · exact (untouched_of_confined confined isSource files files _ rfl).2
  · rintro ⟨files, g, built⟩
    constructor
    · intro same
      apply confined_of_graph placed
      rw [same {} files]
      exact built
    · exact fun confined files files' => graph_confined confined files files' options

/-- A file with a definition that has a property. -/
def animalFiles : FileTree where
  entries := [(["animal.yaml"], .file
    "Animal:\n  properties:\n    name:\n      type: string\n")]

/-- A document with one definition, which is to have what the one in the file has. -/
def animalHolder (name : String) : Json := .object [("openapi", .string "3.0.0"),
  ("components", .object [("schemas", .object [(name, .object
    [("allOf", .array [.object [("$ref", .string "animal.yaml#/Animal")]])])])])]

/-- The columns of the entities that a merged document is built to. -/
def columnsOf? (files : FileTree) (m : Merged) : Option (List (String × List String)) :=
  (graph files ⟨m.document, m.path⟩ {}).toOption.map fun g =>
    g.entities.map fun entry => (entry.1, entry.2.columns.keys)

/-- The dog has the name of the animal, on whatever file system it is built. -/
theorem dog_same : ∃ m, Merge.result animalFiles (animalHolder "Dog") none ⟨"/"⟩ = .ok m ∧
    columnsOf? {} m = some [("Dog", ["name"]), ("Animal", ["name"])] ∧
    ∀ files files', graph files ⟨m.document, m.path⟩ {} = graph files' ⟨m.document, m.path⟩ {} := by
  have run : (Merge.result animalFiles (animalHolder "Dog") none ⟨"/"⟩).toOption.map (fun m =>
      (m.path.isNone, m.document.hiddenRefs ++
        (Merge.definitionsOf m.document).flatMap fun entry => listedRefs entry.2,
        columnsOf? {} m)) = some (true, [], some [("Dog", ["name"]), ("Animal", ["name"])]) := by
    decide +kernel
  obtain ⟨m, merged, shape⟩ := exists_ok_of_map run
  simp only [Prod.mk.injEq] at shape
  obtain ⟨noPath, nothing, columns⟩ := shape
  obtain ⟨hidden, listed⟩ := List.append_eq_nil_iff.mp nothing
  have placed : ∀ p, m.path = some p → p.normal ≠ ⟨"/"⟩ := by
    simp [Option.isNone_iff_eq_none.mp noPath]
  obtain ⟨unseen, same, _⟩ := graph_same_iff merged placed {}
  have confined : Confined ⟨m.document, m.path⟩ := by
    intro raw asked out
    rcases unseen raw asked out with held | ⟨entry, member, held⟩
    · rw [hidden] at held
      cases held
    · have isListed : raw ∈ (Merge.definitionsOf m.document).flatMap fun entry =>
          listedRefs entry.2 := List.mem_flatMap.mpr ⟨entry, member, held⟩
      rw [listed] at isListed
      cases isListed
  exact ⟨m, merged, columns, (same confined).1⟩

/-- A definition under the name `$ref` is not seen by the merge, so the build still needs the
file. -/
theorem hidden_not_same : ∃ m,
    Merge.result animalFiles (animalHolder "$ref") none ⟨"/"⟩ = .ok m ∧
    columnsOf? animalFiles m = some [("$ref", ["name"])] ∧
    graph {} ⟨m.document, m.path⟩ {} ≠ graph animalFiles ⟨m.document, m.path⟩ {} := by
  have run : (Merge.result animalFiles (animalHolder "$ref") none ⟨"/"⟩).toOption.map (fun m =>
      (columnsOf? {} m, columnsOf? animalFiles m)) = some (none, some [("$ref", ["name"])]) := by
    decide +kernel
  obtain ⟨m, merged, shape⟩ := exists_ok_of_map run
  obtain ⟨without, within⟩ := Prod.mk.inj shape
  refine ⟨m, merged, within, fun same => ?_⟩
  rw [columnsOf?, same] at without
  rw [columnsOf?, without] at within
  cases within

end ApiGraph.Build
