import ApiGraph.Proofs.Merge.Locality

/-! What the references of a merged document lead to. Adding definitions leaves everything in its
place, and changes only what lies on the way to them (`follow_addDefinitions`). A string that was
rewritten leads to a node exactly if its target has a place that can be referred to (`Survives`),
and to the node that is meant exactly if this is kept apart from all others (`Undisturbed`). In the
document this is so off the way to the definitions (`undisturbed_of_open`), and outside of it as
long as no path holds a hash (`undisturbed_of_hashFree`). -/

namespace ApiGraph

namespace Merge

open Resolver (Origin LeadsTo)

/-- Whether segments lead to a part of a document that grows when definitions are added: the
document itself, its components, or their table of definitions. -/
def Grows (segments : List (List Char)) : Prop :=
  segments.map Json.Pointer.unescape <+: ["components".toList, "schemas".toList]

instance (segments : List (List Char)) : Decidable (Grows segments) :=
  inferInstanceAs (Decidable (_ <+: _))

/-- What stands below a key is found in the value of the key. -/
theorem follow_object_cons {fields : Table Json} {segment : List Char}
    {rest : List (List Char)} {node : Json}
    (found : (Json.object fields).follow (segment :: rest) = some node) : ∃ value,
    Table.get? fields (String.ofList (Json.Pointer.unescape segment)) = some value ∧
      value.follow rest = some node := by
  rw [Json.follow_cons, Json.step_object, Option.bind_eq_some_iff] at found
  exact found

/-- A path through an object goes on below the value that is put there, or does not meet it. -/
theorem follow_insert_cases {fields : Table Json} {segment : List Char}
    {rest : List (List Char)} {node : Json}
    (found : (Json.object fields).follow (segment :: rest) = some node) (key : String)
    (new : Json) :
    (Json.Pointer.unescape segment = key.toList ∧
      (∃ old, Table.get? fields key = some old ∧ old.follow rest = some node) ∧
      (Json.object (Table.insert fields key new)).follow (segment :: rest) = new.follow rest) ∨
    (Json.Pointer.unescape segment ≠ key.toList ∧
      (Json.object (Table.insert fields key new)).follow (segment :: rest) = some node) := by
  by_cases here : Json.Pointer.unescape segment = key.toList
  · obtain ⟨old, value, below⟩ := follow_object_cons found
    rw [here, String.ofList_toList] at value
    refine Or.inl ⟨here, ⟨old, value, below⟩, ?_⟩
    rw [Json.follow_cons, Json.step_object, here, String.ofList_toList, Table.get?_insert_self,
      Option.bind_some]
  · have other : key ≠ String.ofList (Json.Pointer.unescape segment) := by
      rintro rfl
      exact here String.toList_ofList.symm
    refine Or.inr ⟨here, ?_⟩
    rw [Json.follow_cons, Json.step_object, Table.get?_insert_ne other, ← Json.step_object,
      ← Json.follow_cons, found]

theorem get?_of_insert_eq {fields : Table Json} {key : String} {new : Json}
    (same : Table.insert fields key new = fields) : Table.get? fields key = some new := by
  rw [← same, Table.get?_insert_self]

/-- The table of definitions grows, and so does everything that it stands in. -/
theorem layout_grows {top components schemas added : Table Json}
    (layout : Layout (.object top) top components schemas) (some : added ≠ []) :
    schemas ++ added ≠ schemas ∧
      Table.insert components "schemas" (.object (schemas ++ added)) ≠ components ∧
      relaid top components (schemas ++ added) ≠ .object top := by
  have longer : schemas ++ added ≠ schemas := by simpa using some
  have inner : Table.insert components "schemas" (.object (schemas ++ added)) ≠ components := by
    intro same
    have isSchemas := layout.isSchemas
    rw [get?_of_insert_eq same, Option.getD_some] at isSchemas
    exact longer (Option.some.inj isSchemas)
  refine ⟨longer, inner, ?_⟩
  intro same
  have isComponents := layout.isComponents
  rw [get?_of_insert_eq (Json.object.inj same), Option.getD_some] at isComponents
  exact inner (Option.some.inj isComponents)

/-- What stands at the end of a path in a document, and in the document with another table of
definitions: the same, if the path is not one to a part that holds the table. -/
inductive Replaced (top components schemas schemas' : Table Json) (segments : List (List Char)) :
    Json → Json → Prop
  | document (grows : Grows segments) :
    Replaced top components schemas schemas' segments (.object top)
      (relaid top components schemas')
  | components (grows : Grows segments) :
    Replaced top components schemas schemas' segments (.object components)
      (.object (Table.insert components "schemas" (.object schemas')))
  | schemas (grows : Grows segments) :
    Replaced top components schemas schemas' segments (.object schemas) (.object schemas')
  | aside {node : Json} (stays : ¬ Grows segments) :
    Replaced top components schemas schemas' segments node node

/-- A path leads to something in a document with another table of definitions if the definition
that it passes is kept. -/
theorem exists_replaced {top components schemas schemas' : Table Json}
    (layout : Layout (.object top) top components schemas)
    {segments : List (List Char)} {node : Json}
    (kept : ∀ name rest, segments.map Json.Pointer.keyOf = "components" :: "schemas" :: name :: rest →
      ∀ value, Table.get? schemas name = some value → Table.get? schemas' name = some value)
    (found : (Json.object top).follow segments = some node) :
    ∃ node', (relaid top components schemas').follow segments = some node' ∧
      Replaced top components schemas schemas' segments node node' := by
  have isComponents := layout.isComponents
  have isSchemas := layout.isSchemas
  cases segments with
  | nil =>
    cases found
    exact ⟨_, rfl, .document (by decide)⟩
  | cons first rest =>
  rcases follow_insert_cases found "components"
      (.object (Table.insert components "schemas" (.object schemas'))) with
    ⟨inComponents, ⟨value, topValue, found⟩, way⟩ | ⟨inComponents, way⟩
  · rw [topValue] at isComponents
    obtain rfl := eq_object_of_fields? isComponents
    rw [relaid, way]
    cases rest with
    | nil =>
      cases found
      exact ⟨_, rfl, .components (by simp [Grows, inComponents])⟩
    | cons second rest =>
    rcases follow_insert_cases found "schemas" (.object schemas') with
      ⟨inSchemas, ⟨value, componentsValue, found⟩, way⟩ | ⟨inSchemas, way⟩
    · rw [componentsValue] at isSchemas
      obtain rfl := eq_object_of_fields? isSchemas
      rw [way]
      cases rest with
      | nil =>
        cases found
        exact ⟨_, rfl, .schemas (by simp [Grows, inComponents, inSchemas])⟩
      | cons third rest =>
        obtain ⟨value, schemasValue, found⟩ := follow_object_cons found
        refine ⟨node, ?_, .aside (by simp [Grows, inComponents, inSchemas])⟩
        have passed : (first :: second :: third :: rest).map Json.Pointer.keyOf =
            "components" :: "schemas" :: Json.Pointer.keyOf third ::
              rest.map Json.Pointer.keyOf := by
          simp [Json.Pointer.keyOf, inComponents, inSchemas]
        rw [Json.follow_cons, Json.step_object, ← Json.Pointer.keyOf,
          kept _ _ passed _ schemasValue]
        exact found
    · refine ⟨node, way, .aside ?_⟩
      rw [Grows, List.map_cons, List.map_cons, List.cons_prefix_cons, List.cons_prefix_cons]
      exact fun grows => inSchemas grows.2.1
  · refine ⟨node, way, .aside ?_⟩
    rw [Grows, List.map_cons, List.cons_prefix_cons]
    exact fun grows => inComponents grows.1

/-- Whatever stands in a document stands there as well when definitions were added, and is the same
exactly if it is not on the way to them. -/
theorem follow_addDefinitions {document out : Json} {added : Table Json}
    (h : addDefinitions document added = .ok out) (objects : ∀ e ∈ added, e.2.isObject = true)
    (unique : (Table.keys added).Nodup)
    (fresh : ∀ key ∈ Table.keys added, key ∉ Table.keys (definitionsOf document))
    {segments : List (List Char)} {node : Json} (found : document.follow segments = some node) :
    ∃ node', out.follow segments = some node' ∧ aliasTarget? node' = aliasTarget? node ∧
      (node' = node ↔ added = [] ∨ ¬ Grows segments) := by
  rcases addDefinitions_eq_ok h with ⟨rfl, rfl⟩ | ⟨some, top, components, schemas, layout, rfl⟩
  · exact ⟨node, found, rfl, by simp⟩
  rw [definitionsOf_of_layout layout] at fresh
  rw [Table.addAll_of_disjoint unique fresh]
  obtain rfl := layout.isTop
  obtain ⟨longer, inner, outer⟩ := layout_grows layout some
  have grown : ∀ {old new : Json}, Grows segments → new ≠ old →
      (new = old ↔ added = [] ∨ ¬ Grows segments) := by
    intro old new grows other
    simp [other, some, grows]
  have kept : ∀ key value, Table.get? schemas key = .some value →
      Table.get? (schemas ++ added) key = .some value := by
    intro key value there
    rw [Table.get?_append, there]
    rfl
  obtain ⟨node', way, replaced⟩ := exists_replaced layout (fun name _ _ => kept name) found
  refine ⟨node', way, ?_⟩
  cases replaced with
  | document grows => exact ⟨Json.aliasTarget?_insert (by decide) _ _, grown grows outer⟩
  | components grows =>
    exact ⟨Json.aliasTarget?_insert (by decide) _ _, grown grows (by simpa using inner)⟩
  | schemas grows =>
    exact ⟨Json.aliasTarget?_append objects schemas, grown grows (by simpa using longer)⟩
  | aside stays => exact ⟨rfl, by simp [stays]⟩

theorem isObject_addDefinitions {document out : Json} {added : Table Json}
    (h : addDefinitions document added = .ok out) (shape : document.isObject = true) :
    out.isObject = true := by
  rcases addDefinitions_eq_ok h with ⟨rfl, rfl⟩ | ⟨_, top, components, schemas, layout, rfl⟩
  · exact shape
  · rfl

/-- The way to the definitions does not lead through a key `$ref`. -/
theorem open_of_grows {segments : List (List Char)} (h : Grows segments) : Json.Open segments := by
  intro segment member
  have within : Json.Pointer.unescape segment ∈ ["components".toList, "schemas".toList] :=
    h.subset (List.mem_map.mpr ⟨segment, member, rfl⟩)
  intro same
  rw [same] at within
  revert within
  decide

/-! Definitions by name. -/

/-- A definition stands at its place. -/
theorem lookup_definition {document node : Json} {name : String}
    (h : Table.get? (definitionsOf document) name = some node) :
    (definitionFragment name).lookup document = some node := by
  have filled : definitionsOf document ≠ [] := by
    intro empty
    rw [empty] at h
    cases h
  have there := lookup_segmentFragment (pointer?_of_definitionsOf filled)
    (Json.Pointer.slash_not_mem_escape name.toList)
  rwa [Json.Pointer.keyOf_escape, h] at there

theorem definitionsOf_addDefinitions {document out : Json} {added : Table Json}
    (h : addDefinitions document added = .ok out) (unique : (Table.keys added).Nodup)
    (fresh : ∀ key ∈ Table.keys added, key ∉ Table.keys (definitionsOf document)) :
    definitionsOf out = definitionsOf document ++ added := by
  rcases addDefinitions_eq_ok h with ⟨rfl, rfl⟩ | ⟨_, top, components, schemas, layout, rfl⟩
  · simp
  · have after : Layout (relaid top components (Table.addAll schemas added)) _ _ _ := {
      isTop := rfl
      isComponents := by rw [Table.get?_insert_self]; rfl
      isSchemas := by rw [Table.get?_insert_self]; rfl }
    rw [definitionsOf_of_layout layout] at fresh ⊢
    rw [definitionsOf_of_layout after, Table.addAll_of_disjoint unique fresh]

/-! What the local form of a reference leads to. -/

section

variable (files : FileTree) (root : Root) (baseDir : Path) (names : Table String)

/-- The form that the strings of the document itself take. -/
def rootForm : String → String := localForm files root names ⟨none, baseDir⟩

/-- A target as it is brought in. -/
def copyOf (t : Resolved) : Json := t.node.mapRefs (localForm files root names t.origin)

/-- The name by which a target is referred to. -/
def nameIn (t : Resolved) : String := (names.get? t.canonical).getD t.name

/-- The place of a target in the merged document. -/
def place (t : Resolved) : Fragment :=
  if t.isInScope then t.fragment else definitionFragment (nameIn names t)

/-- The node that should stand at the place of a target: its node with its own strings in local
form, or the definition that the document has under its name. -/
def Meant (t : Resolved) (found : Json) : Prop :=
  if t.isInScope then found = t.node.mapRefs (rootForm files root baseDir names)
  else if nameIn names t ∈ root.authored then
    Table.get? (definitionsOf (root.document.mapRefs (rootForm files root baseDir names)))
      (nameIn names t) = some found
  else found = copyOf files root names t

/-- A target whose place can be referred to, and holds no reference. -/
def Survives (t : Resolved) : Prop :=
  if t.isInScope then t.fragment ≠ .document
  else EndsClean (nameIn names t) ∧ ∀ authored,
    Table.get? (definitionsOf root.document) (nameIn names t) = some authored →
      aliasTarget? authored = none

/-- A target whose node is not disturbed: one in the document does not lie on the way to its
definitions, if any are added, or below a key `$ref`, and one outside of it is told from the other
targets by its key. -/
def Undisturbed (targets : List Resolved) (t : Resolved) : Prop :=
  if t.isInScope then
    (targets = [] ∨ ¬ Grows t.fragment.segments) ∧
      Json.copyAt (rootForm files root baseDir names) t.fragment.segments t.node =
        t.node.mapRefs (rootForm files root baseDir names)
  else nameIn names t ∉ root.authored → ∀ s ∈ targets, s.canonical = t.canonical →
    copyOf files root names s = copyOf files root names t

end

/-- The strings that a merge rewrites: those of the document and of the targets that it brings in,
except for the local ones of the document. -/
inductive Rewritten (document : Json) (baseDir : Path) (targets : List Resolved) :
    Origin → String → Prop
  | inRoot {raw : String} (met : raw ∈ document.refs) (moves : ¬ Stays ⟨none, baseDir⟩ raw) :
    Rewritten document baseDir targets ⟨none, baseDir⟩ raw
  | inTarget {t : Resolved} {raw : String} (brought : t ∈ targets) (met : raw ∈ t.node.refs) :
    Rewritten document baseDir targets t.origin raw

section

variable {files : FileTree} {document : Json} {file : Option Path} {baseDir : Path}
  {targets : List Resolved} {names : Table String} {m : Merged}

/-- The definitions of the merged document. -/
theorem Account.definitions
    (account : Account files (Root.of document file) baseDir targets names m) :
    definitionsOf m.document = definitionsOf (document.mapRefs
      (rootForm files (Root.of document file) baseDir names)) ++ m.inlined :=
  definitionsOf_addDefinitions account.document account.keys_nodup (account.fresh _)

/-- What stands at the place of a target that is in the document. -/
theorem Account.stands_here {origin : Origin} {raw : String} {t : Resolved}
    (account : Account files (Root.of document file) baseDir targets names m)
    (leads : meaning files (Root.of document file) origin raw = .ok t)
    (here : t.isInScope = true) : ∃ node, (place names t).lookup m.document = some node ∧
      aliasTarget? node = none ∧
      (Meant files (Root.of document file) baseDir names t node ↔
        Undisturbed files (Root.of document file) baseDir names targets t) := by
  obtain ⟨landed, written, ended⟩ := landed_meaning leads
  have inRoot : t.fragment.lookup document = some t.node :=
    (landed.here (Resolved.file_eq_none here)).1
  have isObject : document.isObject = true := account.isObject
  rw [Fragment.lookup_eq_follow written isObject] at inRoot
  have copied := Json.follow_mapRefs (rootForm files (Root.of document file) baseDir names)
    document t.fragment.segments
  rw [inRoot, Option.map_some] at copied
  obtain ⟨node, found, same, undisturbed⟩ := follow_addDefinitions account.document
    account.objects account.keys_nodup (account.fresh _) copied
  have shape : (document.mapRefs (rootForm files (Root.of document file) baseDir names)).isObject =
      true := (Json.isObject_mapRefs _ document).trans isObject
  have after := isObject_addDefinitions account.document shape
  have nothing : m.inlined = [] ↔ targets = [] := by
    rw [account.inlined, List.map_eq_nil_iff]
  rw [nothing] at undisturbed
  refine ⟨node, ?_, ?_, ?_⟩
  · rw [place, if_pos here, Fragment.lookup_eq_follow written after]
    exact found
  · rw [same]
    exact Json.aliasTarget?_copyAt _ _ ended
  · simp only [Meant, Undisturbed, here, ↓reduceIte]
    constructor
    · rintro rfl
      by_cases calm : targets = [] ∨ ¬ Grows t.fragment.segments
      · exact ⟨calm, (undisturbed.mpr calm).symm⟩
      · have way : Json.Open t.fragment.segments := by
          apply open_of_grows
          by_contra stays
          exact calm (Or.inr stays)
        refine absurd (undisturbed.mp ?_) calm
        unfold Json.copyAt
        rw [if_pos way]
    · rintro ⟨calm, copy⟩
      rw [undisturbed.mpr calm, copy]

/-- A target that was brought in is told from the others by its key. -/
theorem Account.eq_of_canonical {root : Root} {s t : Resolved}
    (account : Account files root baseDir targets names m) (hs : s ∈ targets) (ht : t ∈ targets)
    (same : s.canonical = t.canonical) : s = t := by
  apply List.inj_on_of_nodup_map account.unique hs ht
  have first := account.assigned s hs
  rw [same, account.assigned t ht] at first
  exact (Option.some.inj first).symm

/-- What stands at the place of a target that is called like a definition of the document. -/
theorem Account.stands_authored {t : Resolved} {authored : Json}
    (account : Account files (Root.of document file) baseDir targets names m)
    (away : t.isInScope = false)
    (found : Table.get? (definitionsOf document) (nameIn names t) = some authored) :
    ∃ node, (definitionFragment (nameIn names t)).lookup m.document = some node ∧
      (aliasTarget? node = none ↔ aliasTarget? authored = none) ∧
      Meant files (Root.of document file) baseDir names t node ∧
      Undisturbed files (Root.of document file) baseDir names targets t := by
  have isAuthored : nameIn names t ∈ (Root.of document file).authored := by
    rw [authored_eq]
    exact Table.mem_keys_of_get? found
  obtain ⟨node, copied, kept⟩ := Json.exists_get?_mapEntries
    (rootForm files (Root.of document file) baseDir names) found
  have definitions := account.definitions
  rw [definitionsOf_mapRefs] at definitions
  refine ⟨node, lookup_definition ?_, by rw [kept], ?_, ?_⟩
  · rw [definitions, Table.get?_append, copied]
    rfl
  · have meant : Table.get? (definitionsOf ((Root.of document file).document.mapRefs
        (rootForm files (Root.of document file) baseDir names))) (nameIn names t) = some node := by
      rw [definitionsOf_mapRefs]
      exact copied
    simp [Meant, away, isAuthored, meant]
  · simp [Undisturbed, away, isAuthored]

/-- What stands at the place of a target whose name no definition of the document has. -/
theorem Account.stands_inlined {t : Resolved}
    (account : Account files (Root.of document file) baseDir targets names m)
    (away : t.isInScope = false) {name : String} (named : names.get? t.canonical = some name)
    (found : Table.get? (definitionsOf document) name = none) :
    ∃ node, (definitionFragment name).lookup m.document = some node ∧ aliasTarget? node = none ∧
      (Meant files (Root.of document file) baseDir names t node ↔
        Undisturbed files (Root.of document file) baseDir names targets t) := by
  have isName : nameIn names t = name := by rw [nameIn, named, Option.getD_some]
  have unauthored : name ∉ (Root.of document file).authored := by
    rw [authored_eq]
    exact Table.get?_eq_none_iff.mp found
  obtain ⟨s, reached, key, rfl, brought⟩ := account.known _ _ named
  have brought := brought.resolve_left unauthored
  have inlined : Table.get? m.inlined s.name =
      some (copyOf files (Root.of document file) names s) := by
    rw [Table.get?_eq_some_iff account.keys_nodup, account.inlined, List.mem_map]
    exact ⟨s, brought, rfl⟩
  obtain ⟨_, _, _, leads⟩ := reached.leads
  have ended := (landed_meaning leads).2.2
  have definitions := account.definitions
  rw [definitionsOf_mapRefs] at definitions
  refine ⟨copyOf files (Root.of document file) names s, lookup_definition ?_, ?_, ?_⟩
  · have absent := Table.get?_eq_none_iff.mpr (Json.keys_mapEntries
      (rootForm files (Root.of document file) baseDir names) (definitionsOf document) ▸
        Table.get?_eq_none_iff.mp found)
    rw [definitions, Table.get?_append, absent, Option.none_or, inlined]
  · rw [copyOf, Json.aliasTarget?_mapRefs, ended]
    rfl
  · simp only [Meant, Undisturbed, away, isName, unauthored, Bool.false_eq_true, ↓reduceIte,
      not_false_eq_true, forall_const]
    constructor
    · intro same other member clash
      rw [account.eq_of_canonical member brought (clash.trans key.symm), same]
    · exact fun all => all s brought key

/-- What stands at the place of a target that has a name. -/
theorem Account.stands_away {t : Resolved}
    (account : Account files (Root.of document file) baseDir targets names m)
    (away : t.isInScope = false) {name : String} (named : names.get? t.canonical = some name) :
    ∃ node, (place names t).lookup m.document = some node ∧
      (aliasTarget? node = none ↔ ∀ authored,
        Table.get? (definitionsOf document) name = some authored → aliasTarget? authored = none) ∧
      (Meant files (Root.of document file) baseDir names t node ↔
        Undisturbed files (Root.of document file) baseDir names targets t) := by
  have isName : nameIn names t = name := by rw [nameIn, named, Option.getD_some]
  have isPlace : place names t = definitionFragment name := by simp [place, away, isName]
  rw [isPlace]
  cases found : Table.get? (definitionsOf document) name with
  | some authored =>
    rw [← isName] at found ⊢
    obtain ⟨node, stands, ended, meant, undisturbed⟩ := account.stands_authored away found
    exact ⟨node, stands, by simpa using ended, iff_of_true meant undisturbed⟩
  | none =>
    obtain ⟨node, stands, ended, meant⟩ := account.stands_inlined away named found
    exact ⟨node, stands, by simpa using ended, meant⟩

/-- Outside of the way to the definitions and of what stands below a key `$ref`, nodes of the
document are not disturbed. -/
theorem undisturbed_of_open {root : Root} {t : Resolved} (here : t.isInScope = true)
    (way : Json.Open t.fragment.segments) (aside : ¬ Grows t.fragment.segments) :
    Undisturbed files root baseDir names targets t := by
  simp only [Undisturbed, here, ↓reduceIte]
  refine ⟨Or.inr aside, ?_⟩
  unfold Json.copyAt
  rw [if_pos way]

/-- No canonical path holds a hash. -/
def HashFree (files : FileTree) : Prop :=
  ∀ p q, files.canonicalize p = .ok q → '#' ∉ q.text.toList

theorem file_of_landed {scope : Scope} {t : Resolved} (plain : HashFree files)
    (landed : Resolver.Landed files scope t) {p : Path} (file : t.file = some p) :
    Text.cutFirst '#' t.canonical.toList = some (p.text.toList, t.fragment.text.toList) := by
  obtain ⟨canonical, _, _, document, loaded, _⟩ := landed.there p file
  obtain ⟨text, read⟩ := FileTree.read_of_load loaded
  have bare := plain p p (FileTree.canonicalize_of_read canonical read)
  have key : t.canonical.toList = p.text.toList ++ '#' :: t.fragment.text.toList := by
    rw [landed.keyed, file]
    simp
  rw [key]
  exact Text.cutFirst_append bare _

/-- No canonical path holds a hash if none of the names does. -/
theorem hashFree_of_names (home : ∀ name ∈ files.home, '#' ∉ name.toList)
    (entries : ∀ e ∈ files.entries, ∀ name ∈ e.1, '#' ∉ name.toList) : HashFree files := by
  intro p q found hash
  obtain ⟨location, located, _, rfl⟩ := FileTree.canonicalize_eq_ok found
  have bare : ∀ name ∈ location, '#' ∉ name.toList := by
    intro name member
    rw [FileTree.locate] at located
    split at located
    · cases located
    split at located
    · cases located
    rcases FileTree.mem_of_follow located member with start | ⟨e, isEntry, within⟩
    · split at start
      · cases start
      · exact home name start
    · exact entries e isEntry name within
  rw [FileTree.toList_textOf] at hash
  rcases List.mem_cons.mp hash with slash | later
  · cases slash
  · rcases FileTree.mem_intercalate later with slash | ⟨name, member, inName⟩
    · cases slash
    · exact bare name member inName

/-- Without hashes in paths, targets outside of the document are known by their keys. -/
theorem eq_of_canonical {scope scope' : Scope} {s t : Resolved} (plain : HashFree files)
    (hs : Resolver.Landed files scope s) (ht : Resolver.Landed files scope' t)
    (reads : s.fragment.ReadsBack) (reads' : t.fragment.ReadsBack) (sAway : s.isInScope = false)
    (tAway : t.isInScope = false) (same : s.canonical = t.canonical) : s = t := by
  obtain ⟨p, file⟩ := Resolved.exists_file sAway
  obtain ⟨q, file'⟩ := Resolved.exists_file tAway
  have cut := file_of_landed plain hs file
  rw [same, file_of_landed plain ht file'] at cut
  simp only [Option.some.injEq, Prod.mk.injEq, String.toList_inj] at cut
  have samePath : p = q := by
    obtain ⟨text⟩ := p
    obtain ⟨text'⟩ := q
    simpa using cut.1.symm
  subst samePath
  exact hs.eq_of_place ht file file' (reads.eq_of_text reads' cut.2.symm)

/-- Without hashes in paths, targets are told from each other by their keys. -/
theorem undisturbed_of_hashFree {root : Root} {origin : Origin} {raw : String} {t : Resolved}
    (plain : HashFree files) (account : Account files root baseDir targets names m)
    (leads : meaning files root origin raw = .ok t) (away : t.isInScope = false) :
    Undisturbed files root baseDir names targets t := by
  simp only [Undisturbed, away, Bool.false_eq_true, ↓reduceIte]
  intro _ s brought same
  obtain ⟨sAway, sOrigin, sRaw, sLeads⟩ := (account.reached s brought).1.leads
  obtain ⟨landed, written, _⟩ := landed_meaning leads
  obtain ⟨sLanded, sWritten, _⟩ := landed_meaning sLeads
  rw [eq_of_canonical plain sLanded landed sWritten.reads written.reads sAway away same]

/-- After a merge, a reference string that was rewritten leads, in the merged document alone, to
the place of its target and to a node there that is no reference, exactly if the target survives;
and this is the node that was meant exactly if the target is not disturbed besides. -/
theorem rewritten_leadsTo_iff (merged : result files document file baseDir = .ok m) :
    ∃ targets names, Account files (Root.of document file) baseDir targets names m ∧
      ∀ origin raw, Rewritten document baseDir targets origin raw →
        ∃ t, meaning files (Root.of document file) origin raw = .ok t ∧
          ((∃ found, LeadsTo m.document (localForm files (Root.of document file) names origin raw)
            (place names t) found) ↔ Survives (Root.of document file) names t) ∧
          ((∃ found, LeadsTo m.document (localForm files (Root.of document file) names origin raw)
              (place names t) found ∧
            Meant files (Root.of document file) baseDir names t found) ↔
            Survives (Root.of document file) names t ∧
              Undisturbed files (Root.of document file) baseDir names targets t) := by
  obtain ⟨_, targets, names, account⟩ := account_of_ok merged
  refine ⟨targets, names, account, ?_⟩
  intro origin raw rewritten
  have settled : ¬ Stays origin raw ∧ Settled files (Root.of document file) names origin raw := by
    cases rewritten with
    | inRoot met moves => exact ⟨moves, account.settledRoot raw met⟩
    | inTarget brought met =>
      have away := (account.reached _ brought).1.leads.1
      refine ⟨?_, account.settledTargets _ brought raw met⟩
      intro stays
      have file := stays.1
      simp only [Resolved.origin] at file
      simp [Resolved.isInScope, file] at away
  obtain ⟨moves, settled⟩ := settled
  obtain ⟨t, leads, assigned⟩ := settled.resolve_left moves
  refine ⟨t, leads, ?_⟩
  have same : ∃ node, localForm files (Root.of document file) names origin raw =
        "#" ++ (place names t).text ∧
      (place names t).lookup m.document = some node ∧
      ((place names t).Written ∧ place names t ≠ .document ∧ aliasTarget? node = none ↔
        Survives (Root.of document file) names t) ∧
      (Meant files (Root.of document file) baseDir names t node ↔
        Undisturbed files (Root.of document file) baseDir names targets t) := by
    by_cases here : t.isInScope = true
    · obtain ⟨node, stands, ended, meant⟩ := account.stands_here leads here
      have written := (landed_meaning leads).2.1
      refine ⟨node, ?_, stands, ?_, meant⟩
      · simp [localForm, moves, leads, here, place]
      · simp [place, Survives, here, written, ended]
    · have away : t.isInScope = false := by simpa using here
      obtain ⟨name, named⟩ := assigned.resolve_left here
      obtain ⟨node, stands, ended, meant⟩ := account.stands_away away named
      have isName : nameIn names t = name := by rw [nameIn, named, Option.getD_some]
      have isPlace : place names t = definitionFragment name := by simp [place, away, isName]
      refine ⟨node, ?_, stands, ?_, meant⟩
      · rw [(form_of_named moves leads away named).2, isPlace, definitionRef_eq]
      · rw [isPlace, ended]
        simp only [Survives, away, isName, Bool.false_eq_true, ↓reduceIte,
          definitionFragment_ne_document, ne_eq, not_false_eq_true, true_and]
        exact and_congr_left fun _ => ⟨endsClean_of_written, definitionFragment_written⟩
  obtain ⟨node, form, stands, survives, meant⟩ := same
  have leadsTo : ∀ found, LeadsTo m.document
      (localForm files (Root.of document file) names origin raw) (place names t) found ↔
      found = node ∧ Survives (Root.of document file) names t := by
    intro found
    rw [form, Resolver.leadsTo_hash_iff, stands, Option.some.injEq, ← survives]
    constructor
    · rintro ⟨written, filled, rfl, ended⟩
      exact ⟨rfl, written, filled, ended⟩
    · rintro ⟨rfl, written, filled, ended⟩
      exact ⟨written, filled, rfl, ended⟩
  simp only [leadsTo]
  constructor
  · simp
  · rw [← meant]
    constructor
    · rintro ⟨found, ⟨rfl, alive⟩, isMeant⟩
      exact ⟨alive, isMeant⟩
    · rintro ⟨alive, isMeant⟩
      exact ⟨node, ⟨rfl, alive⟩, isMeant⟩

end

/-- What the owner's reference leads to after the merge, by the one target of the merge. -/
theorem petOwner_leadsTo : ∃ m targets names t, result petFiles petOwner none ⟨"/"⟩ = .ok m ∧
    Account petFiles (Root.of petOwner none) ⟨"/"⟩ targets names m ∧
    meaning petFiles (Root.of petOwner none) ⟨none, ⟨"/"⟩⟩ "pet.yaml#/Pet" = .ok t ∧
    ((∃ found, LeadsTo m.document (localForm petFiles (Root.of petOwner none) names ⟨none, ⟨"/"⟩⟩
      "pet.yaml#/Pet") (place names t) found) ↔ Survives (Root.of petOwner none) names t) := by
  obtain ⟨m, merged, _⟩ := exists_ok_of_map petOwner_merges
  obtain ⟨targets, names, account, all⟩ := rewritten_leadsTo_iff merged
  have met : "pet.yaml#/Pet" ∈ petOwner.refs := by decide
  obtain ⟨t, leads, survives, _⟩ := all _ _ (.inRoot met (by decide))
  exact ⟨m, targets, names, t, merged, account, leads, survives⟩

/-- A document whose definition of the pet is the reference to it. -/
def petAlias : Json :=
  .object [("components", .object [("schemas", .object
    [("Pet", .object [("$ref", .string "pet.yaml#/Pet")])])])]

def isCycle : Except Fault Resolved → Bool
  | .error (.referenceCycle _) => true
  | _ => false

/-- A definition that is the reference to a target of its own name refers to itself after the
merge. -/
theorem petAlias_cycle : ∃ m, result petFiles petAlias none ⟨"/"⟩ = .ok m ∧
    "#/components/schemas/Pet" ∈ m.document.refs ∧
    isCycle (Resolver.alone m.document "#/components/schemas/Pet") = true := by
  have run : (result petFiles petAlias none ⟨"/"⟩).toOption.map (fun m =>
      (m.document.refs, isCycle (Resolver.alone m.document "#/components/schemas/Pet"))) =
      some (["#/components/schemas/Pet"], true) := by
    decide +kernel
  obtain ⟨m, merged, found⟩ := exists_ok_of_map run
  obtain ⟨refs, cycle⟩ := Prod.mk.inj found
  exact ⟨m, merged, by simp [refs], cycle⟩

end Merge

end ApiGraph
