import ApiGraph.Proofs.Document.Loaded
import ApiGraph.Proofs.Merge.Definitions
import ApiGraph.Proofs.Merge.Depth
import Mathlib.Data.List.Dedup

/-! Splitting a document over files. A `Plan` moves some of the definitions of a document to other
files, where each reference is written as it reads from the file that it stands in. Merging brings
all of them back: the merged document is the one that was split, but for the order of its
definitions (`Mergeable.document_of_split`). A document that refers to no other file is left as it
is (`document_of_local`). -/

namespace ApiGraph.Merge

open Resolver (Origin)

/-- The directory from which the references in a file are read. -/
def directory (p : Path) : Path := p.parent?.getD Path.here

/-- How the definitions of a document are spread over files. -/
structure Plan where
  root : Path
  /-- The file of a definition that is moved out of the root. -/
  home : String → Option Path
  /-- How a reference of the document is written in a file. -/
  spell : Path → String → String

namespace Plan

def fileOf (plan : Plan) (name : String) : Path := (plan.home name).getD plan.root

/-- The document without the definitions that are moved. -/
def kept (plan : Plan) (document : Json) : Json :=
  withDefinitions (·.filter fun entry => (plan.home entry.1).isNone) document

/-- The document that stands in the root file. -/
def rootDocument (plan : Plan) (document : Json) : Json :=
  (plan.kept document).mapRefs (plan.spell plan.root)

/-- The files with a part of the document. -/
def IsFile (plan : Plan) (document : Json) (p : Path) : Prop :=
  p = plan.root ∨ ∃ name ∈ (definitionsOf document).keys, plan.home name = some p

/-- The definitions that references lead to, from the root and from what was moved out of it. -/
inductive FromRoot (plan : Plan) (document : Json) : String → Prop
  | root {name : String} (met : definitionRef name ∈ (plan.kept document).refs) :
    FromRoot plan document name
  | through {name other : String} {node : Json} {p : Path} (before : FromRoot plan document name)
    (moved : plan.home name = some p)
    (defined : (definitionsOf document).get? name = some node)
    (met : definitionRef other ∈ node.refs) : FromRoot plan document other

end Plan

/-- A text that stands in the first file leads to the definition of the given name in the second
one: it is the local reference, or it names the file by a path from the directory of the first. -/
def LeadsAcross (files : FileTree) (p q : Path) (name text : String) : Prop :=
  text = definitionRef name ∧ p = q ∨
  ∃ path, Reference.ofText text = .ok (.external path (definitionFragment name)) ∧
    files.canonicalize ((directory p).join path) = .ok q

/-- The file that a text names by a path, if it leads to the definition of the given name there. -/
def across? (files : FileTree) (p : Path) (name text : String) : Option Path :=
  match Reference.ofText text with
  | .ok (.external path fragment) =>
    if fragment = definitionFragment name then
      (files.canonicalize ((directory p).join path)).toOption
    else none
  | _ => none

theorem across?_eq_some_iff {files : FileTree} {p q : Path} {name text : String} :
    across? files p name text = some q ↔
      ∃ path, Reference.ofText text = .ok (.external path (definitionFragment name)) ∧
        files.canonicalize ((directory p).join path) = .ok q := by
  rw [across?]
  cases read : Reference.ofText text with
  | error fault => simp
  | ok ref =>
    cases ref with
    | inFile fragment => simp
    | external path fragment =>
      by_cases isDefinition : fragment = definitionFragment name
      · cases leads : files.canonicalize ((directory p).join path) <;>
          simp [isDefinition, leads, Except.toOption]
      · simp [isDefinition]

instance (files : FileTree) (p q : Path) (name text : String) :
    Decidable (LeadsAcross files p q name text) :=
  decidable_of_iff (text = definitionRef name ∧ p = q ∨ across? files p name text = some q)
    (or_congr_right across?_eq_some_iff)

/-- The files hold the document as the plan says. -/
structure Plan.Splits (plan : Plan) (files : FileTree) (document : Json) : Prop where
  root : files.load plan.root = .ok (plan.rootDocument document)
  moved : ∀ name node p, (definitionsOf document).get? name = some node →
    plan.home name = some p → p ≠ plan.root ∧ files.canonicalize p = .ok p ∧
      ∃ other, files.load p = .ok other ∧
        (definitionFragment name).lookup other = some (node.mapRefs (plan.spell p))
  written : ∀ p, plan.IsFile document p → ∀ name ∈ (definitionsOf document).keys,
    LeadsAcross files p (plan.fileOf name) name (plan.spell p (definitionRef name))
  /-- References to anything but definitions stay as they are. -/
  others : ∀ raw ∈ document.refs,
    (∀ name ∈ (definitionsOf document).keys, raw ≠ definitionRef name) →
      plan.spell plan.root raw = raw
  reachable : ∀ name node p, (definitionsOf document).get? name = some node →
    plan.home name = some p → plan.FromRoot document name

/-- A document that refers to no other file, with definitions that refer to each other and to
nothing else, by names that can be written in a reference. -/
structure SelfContained (document : Json) : Prop where
  isLocal : ∀ raw ∈ document.refs, ∃ fragment, Reference.ofText raw = .ok (.inFile fragment)
  inside : ∀ name node, (definitionsOf document).get? name = some node →
    ∀ raw ∈ node.refs, ∃ other ∈ (definitionsOf document).keys, raw = definitionRef other
  named : ∀ name ∈ (definitionsOf document).keys, name ≠ "" ∧ name ≠ refKey ∧ EndsClean name
  untitled : ∀ name node, (definitionsOf document).get? name = some node →
    (node.get? "title").bind Json.string? = none

variable {files : FileTree} {plan : Plan} {document : Json}

/-! The root of a split document. -/

namespace Plan

/-- The file of a reference, unless it stands in the root. -/
def outside (plan : Plan) (p : Path) : Option Path := if p = plan.root then none else some p

/-- Where the references stand that are written in a file. -/
def origin (plan : Plan) (p : Path) : Origin := ⟨plan.outside p, directory p⟩

def asRoot (plan : Plan) (document : Json) : Root :=
  Root.of (plan.rootDocument document) (some plan.root)

theorem definitionsOf_rootDocument : definitionsOf (plan.rootDocument document) =
    Json.mapEntries (plan.spell plan.root)
      ((definitionsOf document).filter fun entry => (plan.home entry.1).isNone) := by
  rw [rootDocument, definitionsOf_mapRefs, kept, definitionsOf_withDefinitions rfl]

/-- The root keeps the definitions that are not moved. -/
theorem mem_authored_iff {name : String} : name ∈ (plan.asRoot document).authored ↔
    name ∈ (definitionsOf document).keys ∧ plan.home name = none := by
  rw [asRoot, authored_eq, definitionsOf_rootDocument, Json.keys_mapEntries, Table.mem_keys_iff,
    Table.get?_filter (fun name => (plan.home name).isNone), Table.mem_keys_iff]
  cases plan.home name <;> simp

/-- The definitions that are brought in have a table to be added to. -/
theorem addDefinitions_ok {added : Table Json}
    (defined : ∀ e ∈ added, e.1 ∈ (definitionsOf document).keys) (form : String → String)
    (fault : Fault) :
    addDefinitions ((plan.rootDocument document).mapRefs form) added ≠ .error fault := by
  cases added with
  | nil =>
    intro failed
    cases failed
  | cons e rest =>
    rcases hasTable_or_unchanged document with ⟨top, components, schemas, table⟩ | ⟨_, none⟩
    · have relaid := hasTable_relaid top components
        (schemas.filter fun entry => (plan.home entry.1).isNone)
      rw [← withDefinitions_eq table fun schemas =>
        schemas.filter fun entry => (plan.home entry.1).isNone] at relaid
      have layout := ((relaid.mapRefs (plan.spell plan.root)).mapRefs form).layout
      intro failed
      rw [addDefinitions, if_neg (by simp)] at failed
      rw [rootDocument, kept, modifyDefinitions_of_layout layout] at failed
      cases failed
    · have isDefined := defined e (by simp)
      rw [none] at isDefined
      cases isDefined

end Plan

/-! What the references of the parts lead to. -/

/-- A target is a definition that was moved, as it stands in its file. -/
structure Stands (plan : Plan) (document : Json) (t : Resolved) (name : String) (node : Json)
    (p : Path) : Prop where
  defined : (definitionsOf document).get? name = some node
  home : plan.home name = some p
  isName : t.name = name
  isNode : t.node = node.mapRefs (plan.spell p)
  isFile : t.file = some p
  isFragment : t.fragment = definitionFragment name
  keyed : t.canonical = p.text ++ "#" ++ t.fragment.text
  isOrigin : t.origin = plan.origin p

/-- The definitions that are moved are objects. -/
def Plan.MovesObjects (plan : Plan) (document : Json) : Prop :=
  ∀ name node p, (definitionsOf document).get? name = some node → plan.home name = some p →
    node.isObject = true

/-- A document that is split, with no definition that is a reference itself. -/
structure Mergeable (files : FileTree) (plan : Plan) (document : Json) : Prop where
  split : plan.Splits files document
  self : SelfContained document
  canonical : FileTree.IsCanonical plan.root
  proper : ∀ name node, (definitionsOf document).get? name = some node →
    aliasTarget? node = none

theorem Plan.isFile_fileOf {name : String} (defined : name ∈ (definitionsOf document).keys) :
    plan.IsFile document (plan.fileOf name) := by
  cases home : plan.home name with
  | none => exact Or.inl (by rw [fileOf, home, Option.getD_none])
  | some p => exact Or.inr ⟨name, defined, by rw [fileOf, home, Option.getD_some]⟩

/-- The root is the one file in scope. -/
theorem Plan.inScope_iff (root : FileTree.IsCanonical plan.root) {p baseDir : Path}
    (canonical : FileTree.IsCanonical p) :
    Resolver.inScope ((plan.asRoot document).scope baseDir) (some p) = true ↔ p = plan.root :=
  Resolver.inScope_iff rfl root canonical

namespace Mergeable

theorem canonicalize (h : Mergeable files plan document) {p : Path}
    (isFile : plan.IsFile document p) : files.canonicalize p = .ok p := by
  rcases isFile with rfl | ⟨name, defined, home⟩
  · obtain ⟨text, read⟩ := FileTree.read_of_load h.split.root
    exact FileTree.canonicalize_of_read h.canonical read
  · obtain ⟨node, found⟩ := Table.mem_keys_iff.mp defined
    exact (h.split.moved name node p found home).2.1

/-- A reference that is not left as it is names the file of its definition. -/
theorem external_of_moves (h : Mergeable files plan document) {p : Path}
    (isFile : plan.IsFile document p) {name : String}
    (defined : name ∈ (definitionsOf document).keys)
    (moves : ¬ Stays (plan.origin p) (plan.spell p (definitionRef name))) :
    ∃ ref path, Reference.ofText (plan.spell p (definitionRef name)) = .ok ref ∧
      (((plan.origin p).file.map ref.within).getD ref) =
        .external path (definitionFragment name) ∧
      files.canonicalize ((directory p).join path) = .ok (plan.fileOf name) := by
  have canonical := h.canonicalize isFile
  rcases h.split.written p isFile name defined with ⟨same, here⟩ | ⟨path, read, leads⟩
  · have read := ofText_definitionRef (h.self.named name defined).2.2
    rw [same] at moves ⊢
    by_cases atRoot : p = plan.root
    · refine absurd ⟨?_, ?_⟩ moves
      · simp [Plan.origin, Plan.outside, atRoot]
      · rw [definitionRef_eq]
        exact Reference.isLocalText_hash _
    · obtain ⟨location, _, isText⟩ := FileTree.isCanonical_of_canonicalize canonical
      have absolute : p.isAbsolute = true := by
        rw [isText, Path.isAbsolute, FileTree.toList_textOf]
        rfl
      refine ⟨_, p, read, ?_, ?_⟩
      · simp [Plan.origin, Plan.outside, atRoot, Reference.within]
      · rw [Path.join, if_pos absolute, canonical, here]
  · refine ⟨_, path, read, ?_, leads⟩
    cases (plan.origin p).file <;> rfl

/-- What stands in the file of a definition. -/
theorem exists_document (h : Mergeable files plan document) {name : String} {node : Json}
    (found : (definitionsOf document).get? name = some node) (baseDir : Path) :
    ∃ other, (if Resolver.inScope ((plan.asRoot document).scope baseDir)
          (some (plan.fileOf name)) = true
        then ((plan.asRoot document).scope baseDir).document = other
        else files.load (plan.fileOf name) = .ok other) ∧
      (definitionFragment name).lookup other =
        some (node.mapRefs (plan.spell (plan.fileOf name))) := by
  cases home : plan.home name with
  | none =>
    have here : plan.fileOf name = plan.root := by rw [Plan.fileOf, home, Option.getD_none]
    have notKey := (h.self.named name (Table.mem_keys_of_get? found)).2.1
    rw [here]
    refine ⟨plan.rootDocument document, ?_, lookup_definition ?_⟩
    · rw [if_pos ((Plan.inScope_iff h.canonical h.canonical).mpr rfl)]
      rfl
    · rw [Plan.definitionsOf_rootDocument, Json.get?_mapEntries _ _ notKey,
        Table.get?_filter (fun name => (plan.home name).isNone), home]
      simp [found]
  | some p =>
    have there : plan.fileOf name = p := by rw [Plan.fileOf, home, Option.getD_some]
    obtain ⟨away, canonical, other, loaded, stands⟩ := h.split.moved name node p found home
    have outOfScope := @Plan.inScope_iff plan document h.canonical _ baseDir
      (FileTree.isCanonical_of_canonicalize canonical)
    rw [there]
    refine ⟨other, ?_, stands⟩
    rw [if_neg fun here => away (outOfScope.mp here)]
    exact loaded

/-- A reference that is not left as it is leads to its definition, as that stands in its file. -/
theorem meaning_eq (h : Mergeable files plan document) {p : Path}
    (isFile : plan.IsFile document p) {name : String} {node : Json}
    (found : (definitionsOf document).get? name = some node)
    (moves : ¬ Stays (plan.origin p) (plan.spell p (definitionRef name))) :
    ∃ t, meaning files (plan.asRoot document) (plan.origin p)
        (plan.spell p (definitionRef name)) = .ok t ∧
      t.fragment = definitionFragment name ∧
      (plan.home name = none → t.isInScope = true) ∧
      ∀ q, plan.home name = some q → Stands plan document t name node q := by
  have defined := Table.mem_keys_of_get? found
  obtain ⟨ref, path, read, external, leads⟩ := h.external_of_moves isFile defined moves
  obtain ⟨other, place, stands⟩ := h.exists_document found (directory p)
  have canonical := FileTree.isCanonical_of_canonicalize
    (h.canonicalize (plan.isFile_fileOf defined))
  have inScope := @Plan.inScope_iff plan document h.canonical _ (directory p) canonical
  obtain ⟨t, first, isNode, isFragment, inFile⟩ :=
    @Resolver.target_external files ((plan.asRoot document).scope (directory p))
      ⟨some plan.root, directory p⟩ _ _ _ _ _ leads place stands
  have ended : aliasTarget? t.node = none := by
    rw [isNode, Json.aliasTarget?_mapRefs, h.proper name node found]
    rfl
  have leadsTo : meaning files (plan.asRoot document) (plan.origin p)
      (plan.spell p (definitionRef name)) = .ok t := by
    rw [meaning, read, ok_bind, external]
    exact Resolver.outcome_of_target first ended
  obtain ⟨landed, _, _⟩ := landed_meaning leadsTo
  refine ⟨t, leadsTo, isFragment, ?_, ?_⟩
  · intro home
    rw [Plan.fileOf, home, Option.getD_none] at inFile inScope
    simp [Resolved.isInScope, inFile, inScope]
  · intro q home
    have away := (h.split.moved name node q found home).1
    rw [Plan.fileOf, home, Option.getD_some] at inFile inScope isNode
    have file : t.file = some q := by simpa [inScope, away] using inFile
    obtain ⟨_, _, parent, _⟩ := landed.there q file
    have untitled : (t.node.get? "title").bind Json.string? = none := by
      rw [isNode, Json.string?_get?_mapRefs _ _ (by decide)]
      exact h.self.untitled name node found
    refine ⟨found, home, ?_, isNode, file, isFragment, ?_, ?_⟩
    · have segment := lastSegment?_definitionFragment (h.self.named name defined).1
      rw [landed.named, Resolver.nameOf, isFragment, segment, untitled]
      rfl
    · rw [landed.keyed, file]
      rfl
    · simp [Resolved.origin, Plan.origin, Plan.outside, directory, file, away, parent]

/-- The strings of the root are references to definitions, or left as they are. -/
theorem mem_refs_root (h : Mergeable files plan document) {raw : String}
    (met : raw ∈ (plan.rootDocument document).refs) :
    (∃ name ∈ (definitionsOf document).keys, raw = plan.spell plan.root (definitionRef name)) ∨
      Stays (plan.origin plan.root) raw ∧
        ∃ fragment, Reference.ofText raw = .ok (.inFile fragment) := by
  rw [Plan.rootDocument, Json.refs_mapRefs, List.mem_map] at met
  obtain ⟨original, met, rfl⟩ := met
  have met := refs_withDefinitions (fun name => (plan.home name).isNone) document met
  by_cases isDefinition : ∃ name ∈ (definitionsOf document).keys, original = definitionRef name
  · obtain ⟨name, defined, rfl⟩ := isDefinition
    exact Or.inl ⟨name, defined, rfl⟩
  · have same := h.split.others original met fun name defined isRef =>
      isDefinition ⟨name, defined, isRef⟩
    obtain ⟨fragment, read⟩ := h.self.isLocal original met
    rw [same]
    refine Or.inr ⟨⟨by simp [Plan.origin, Plan.outside], ?_⟩, fragment, read⟩
    exact Reference.isLocalText_of_inFile read

/-- The strings of a definition that was moved are references to definitions. -/
theorem mem_refs_moved (h : Mergeable files plan document) {t : Resolved} {name raw : String}
    {node : Json} {p : Path} (stands : Stands plan document t name node p)
    (met : raw ∈ t.node.refs) : ∃ other ∈ (definitionsOf document).keys,
      definitionRef other ∈ node.refs ∧ raw = plan.spell p (definitionRef other) := by
  rw [stands.isNode, Json.refs_mapRefs, List.mem_map] at met
  obtain ⟨original, met, rfl⟩ := met
  obtain ⟨other, defined, rfl⟩ := h.self.inside name node stands.defined original met
  exact ⟨other, defined, met, rfl⟩

theorem isFile_of_stands {t : Resolved} {name : String} {node : Json} {p : Path}
    (stands : Stands plan document t name node p) : plan.IsFile document p :=
  Or.inr ⟨name, Table.mem_keys_of_get? stands.defined, stands.home⟩

/-- A target that is away from the root is a definition that was moved. -/
theorem stands_of_meaning (h : Mergeable files plan document) {p : Path}
    (isFile : plan.IsFile document p) {name : String}
    (defined : name ∈ (definitionsOf document).keys)
    (moves : ¬ Stays (plan.origin p) (plan.spell p (definitionRef name))) {t : Resolved}
    (leads : meaning files (plan.asRoot document) (plan.origin p)
      (plan.spell p (definitionRef name)) = .ok t) (away : t.isInScope = false) :
    ∃ node q, Stands plan document t name node q := by
  obtain ⟨node, found⟩ := Table.mem_keys_iff.mp defined
  obtain ⟨t', leads', _, here, stands⟩ := h.meaning_eq isFile found moves
  rw [leads] at leads'
  obtain rfl := Except.ok.inj leads'
  cases home : plan.home name with
  | none =>
    rw [here home] at away
    cases away
  | some q => exact ⟨node, q, stands q home⟩

theorem not_stays_outside {t : Resolved} {name raw : String} {node : Json} {p : Path}
    (stands : Stands plan document t name node p) : ¬ Stays (plan.origin p) raw := by
  rintro ⟨file, _⟩
  rw [← stands.isOrigin, Resolved.origin, stands.isFile] at file
  cases file

/-- Merging meets nothing but definitions that were moved. -/
theorem stands_of_reached (h : Mergeable files plan document) {t : Resolved}
    (reached : Reached files (plan.asRoot document) (directory plan.root) t) :
    ∃ name node p, Stands plan document t name node p := by
  have start : plan.origin plan.root = ⟨none, directory plan.root⟩ := by
    simp [Plan.origin, Plan.outside]
  induction reached with
  | inRoot met moves leads away =>
    rw [← start] at moves leads
    rcases h.mem_refs_root met with ⟨name, defined, rfl⟩ | ⟨stays, _⟩
    · obtain ⟨node, q, stands⟩ := h.stands_of_meaning (Or.inl rfl) defined moves leads away
      exact ⟨name, node, q, stands⟩
    · exact absurd stays moves
  | inTarget _ _ met leads away ih =>
    obtain ⟨name, node, p, stands⟩ := ih
    obtain ⟨other, defined, _, rfl⟩ := h.mem_refs_moved stands met
    rw [stands.isOrigin] at leads
    obtain ⟨node', q, stands'⟩ := h.stands_of_meaning (isFile_of_stands stands) defined
      (not_stays_outside stands) leads away
    exact ⟨other, node', q, stands'⟩

/-! Merging the parts. -/

/-- Every string that merging meets is a reference to a definition, or left as it is. -/
theorem written_of_visited (h : Mergeable files plan document) {origin : Origin} {node : Json}
    (visited : Visited files (plan.asRoot document) (directory plan.root) origin node)
    {raw : String} (met : raw ∈ node.refs) :
    (∃ p, plan.IsFile document p ∧ origin = plan.origin p ∧
      ∃ name ∈ (definitionsOf document).keys, raw = plan.spell p (definitionRef name)) ∨
    Stays origin raw ∧ ∃ fragment, Reference.ofText raw = .ok (.inFile fragment) := by
  cases visited with
  | document =>
    have start : plan.origin plan.root = ⟨none, directory plan.root⟩ := by
      simp [Plan.origin, Plan.outside]
    rw [← start]
    exact (h.mem_refs_root met).imp (fun isRef => ⟨plan.root, Or.inl rfl, rfl, isRef⟩) id
  | target reached _ =>
    obtain ⟨name, node, p, stands⟩ := h.stands_of_reached reached
    obtain ⟨other, defined, _, rfl⟩ := h.mem_refs_moved stands met
    exact Or.inl ⟨p, isFile_of_stands stands, stands.isOrigin, other, defined, rfl⟩

/-- If what was moved are objects, nothing stands in the way of merging the parts. -/
theorem blames (h : Mergeable files plan document) (objects : plan.MovesObjects document) :
    Blames files (plan.asRoot document) (directory plan.root)
      (depthLimit (plan.asRoot document) (Resolver.fresh files)) fun _ => False where
  text := by
    intro origin node raw fault visited met unread
    rcases h.written_of_visited visited met with ⟨p, isFile, _, name, defined, rfl⟩ | ⟨_, _, read⟩
    · rcases h.split.written p isFile name defined with ⟨same, _⟩ | ⟨path, read, _⟩
      · rw [same, ofText_definitionRef (h.self.named name defined).2.2] at unread
        cases unread
      · rw [read] at unread
        cases unread
    · rw [read] at unread
      cases unread
  meaning := by
    intro origin node raw fault visited met moves lost
    rcases h.written_of_visited visited met with ⟨p, isFile, rfl, name, defined, rfl⟩ | ⟨stays, _⟩
    · obtain ⟨found, isDefined⟩ := Table.mem_keys_iff.mp defined
      obtain ⟨t, leads, _⟩ := h.meaning_eq isFile isDefined moves
      rw [leads] at lost
      cases lost
    · exact moves stays
  collision := by
    intro s t first second _ same other
    obtain ⟨name, node, p, stands⟩ := h.stands_of_reached first
    obtain ⟨name', node', p', stands'⟩ := h.stands_of_reached second
    rw [stands.isName, stands'.isName] at same
    subst same
    have place := stands.home
    rw [stands'.home] at place
    cases place
    apply other
    rw [stands.keyed, stands'.keyed, stands.isFragment, stands'.isFragment]
  shape := by
    intro t reached _ shape _
    obtain ⟨name, node, p, stands⟩ := h.stands_of_reached reached
    rw [stands.isNode, Json.isObject_mapRefs, objects name node p stands.defined stands.home]
      at shape
    cases shape
  depth := by
    intro active targets w sound many
    have few := sound.length_lt
    omega

theorem exists_result (h : Mergeable files plan document) (objects : plan.MovesObjects document)
    (shape : document.isObject = true) :
    ∃ m, result files (plan.rootDocument document) (some plan.root) (directory plan.root) =
      .ok m := by
  apply exists_ok_of_blames
  · rw [Plan.rootDocument, Json.isObject_mapRefs, Plan.kept, isObject_withDefinitions, shape]
  · exact h.blames objects
  · intro targets w sound form fault
    apply Plan.addDefinitions_ok
    intro e member
    rw [sound.inlined_eq, List.mem_map] at member
    obtain ⟨t, place, rfl⟩ := member
    obtain ⟨name, node, p, stands⟩ := h.stands_of_reached (sound.reached t place).1
    rw [stands.isName]
    exact Table.mem_keys_of_get? stands.defined

variable {targets : List Resolved} {names : Table String} {m : Merged}

/-- A definition that was moved is told from the others by its key. -/
theorem name_eq_of_canonical {t t' : Resolved} {name name' : String} {node node' : Json}
    {p p' : Path} (stands : Stands plan document t name node p)
    (stands' : Stands plan document t' name' node' p') (same : t.canonical = t'.canonical) :
    name = name' := by
  have segment : ∀ {t : Resolved} {name : String} {node : Json} {p : Path},
      Stands plan document t name node p → (Text.cutLast '/' t.canonical.toList).map (·.2) =
        some (Json.Pointer.escape name.toList) := by
    intro t name node p stands
    rw [stands.keyed, stands.isFragment, String.toList_append, cutLast_definitionFragment]
    rfl
  have escaped := segment stands
  rw [same, segment stands'] at escaped
  have keys := congrArg Json.Pointer.unescape (Option.some.inj escaped)
  rw [Json.Pointer.unescape_escape, Json.Pointer.unescape_escape] at keys
  exact (String.toList_inj.mp keys).symm

/-- A local reference is written in the root as it was. -/
theorem eq_of_stays (h : Mergeable files plan document) {p : Path}
    (isFile : plan.IsFile document p) {name : String}
    (defined : name ∈ (definitionsOf document).keys)
    (stays : Stays (plan.origin p) (plan.spell p (definitionRef name))) :
    plan.spell p (definitionRef name) = definitionRef name ∧ plan.home name = none := by
  rcases h.split.written p isFile name defined with ⟨same, here⟩ | ⟨path, read, _⟩
  · refine ⟨same, ?_⟩
    have atRoot : p = plan.root := by simpa [Plan.origin, Plan.outside] using stays.1
    cases home : plan.home name with
    | none => rfl
    | some q =>
      obtain ⟨node, found⟩ := Table.mem_keys_iff.mp defined
      rw [Plan.fileOf, home, Option.getD_some, atRoot] at here
      exact absurd here.symm (h.split.moved name node q found home).1
  · exact absurd stays.2 (Reference.not_isLocalText_of_external read)

/-- A reference to a definition that was moved leads to a target under its name. -/
theorem named_of_settled (h : Mergeable files plan document)
    (account : Account files (plan.asRoot document) (directory plan.root) targets names m)
    {p : Path} (isFile : plan.IsFile document p) {name : String} {node : Json}
    (found : (definitionsOf document).get? name = some node) {q : Path}
    (home : plan.home name = some q)
    (settled : Settled files (plan.asRoot document) names (plan.origin p)
      (plan.spell p (definitionRef name))) :
    localForm files (plan.asRoot document) names (plan.origin p)
      (plan.spell p (definitionRef name)) = definitionRef name ∧
    name ∈ targets.map (·.name) := by
  have moves : ¬ Stays (plan.origin p) (plan.spell p (definitionRef name)) := by
    intro stays
    rw [(h.eq_of_stays isFile (Table.mem_keys_of_get? found) stays).2] at home
    cases home
  obtain ⟨t, leads, assigned⟩ := settled.resolve_left moves
  obtain ⟨t', leads', _, _, all⟩ := h.meaning_eq isFile found moves
  rw [leads] at leads'
  obtain rfl := Except.ok.inj leads'
  have stands := all q home
  have away : t.isInScope = false := by simp [Resolved.isInScope, stands.isFile]
  obtain ⟨given, named⟩ := assigned.resolve_left (by simp [away])
  obtain ⟨s, reached, same, rfl, place⟩ := account.known _ _ named
  obtain ⟨name', node', p', stands'⟩ := h.stands_of_reached reached
  obtain rfl := name_eq_of_canonical stands' stands same
  rw [stands'.isName] at named place
  refine ⟨(form_of_named moves leads away named).2, ?_⟩
  rcases place with authored | brought
  · rw [(Plan.mem_authored_iff.mp authored).2] at home
    cases home
  · exact List.mem_map.mpr ⟨s, brought, stands'.isName⟩

/-- A reference that was written as it reads from its file is turned back into what it was. -/
theorem localForm_eq (h : Mergeable files plan document)
    (account : Account files (plan.asRoot document) (directory plan.root) targets names m)
    {p : Path} (isFile : plan.IsFile document p) {name : String}
    (defined : name ∈ (definitionsOf document).keys)
    (settled : Settled files (plan.asRoot document) names (plan.origin p)
      (plan.spell p (definitionRef name))) :
    localForm files (plan.asRoot document) names (plan.origin p)
      (plan.spell p (definitionRef name)) = definitionRef name := by
  obtain ⟨node, found⟩ := Table.mem_keys_iff.mp defined
  cases home : plan.home name with
  | some q => exact (h.named_of_settled account isFile found home settled).1
  | none =>
    by_cases stays : Stays (plan.origin p) (plan.spell p (definitionRef name))
    · rw [localForm, if_pos stays, (h.eq_of_stays isFile defined stays).1]
    · obtain ⟨t, leads, isFragment, here, _⟩ := h.meaning_eq isFile found stays
      rw [localForm, if_neg stays]
      simp only [leads, here home, ↓reduceIte, isFragment]
      exact (definitionRef_eq name).symm

/-- The root gets back the strings that it had. -/
theorem rootDocument_mapRefs (h : Mergeable files plan document) (unrepeated : document.Unrepeated)
    (account : Account files (plan.asRoot document) (directory plan.root) targets names m) :
    (plan.rootDocument document).mapRefs
      (localForm files (plan.asRoot document) names ⟨none, directory plan.root⟩) =
      plan.kept document := by
  have start : plan.origin plan.root = ⟨none, directory plan.root⟩ := by
    simp [Plan.origin, Plan.outside]
  have kept : (plan.kept document).Unrepeated := by
    apply unrepeated.amendAt
    exact fun components unrepeated => unrepeated.amendAt _ fun schemas unrepeated =>
      unrepeated.filter _
  rw [← start, Plan.rootDocument, Json.mapRefs_mapRefs]
  refine (Json.mapRefs_congr ?_).trans (Json.mapRefs_id kept)
  intro raw met
  have settled := account.settledRoot (plan.spell plan.root raw) <| by
    have inRoot : (plan.asRoot document).document = plan.rootDocument document := rfl
    rw [inRoot, Plan.rootDocument, Json.refs_mapRefs]
    exact List.mem_map_of_mem met
  rw [← start] at settled
  have met := refs_withDefinitions (fun name => (plan.home name).isNone) document met
  by_cases isDefinition : ∃ name ∈ (definitionsOf document).keys, raw = definitionRef name
  · obtain ⟨name, defined, rfl⟩ := isDefinition
    exact h.localForm_eq account (Or.inl rfl) defined settled
  · have same := h.split.others raw met fun name defined isRef => isDefinition ⟨name, defined, isRef⟩
    obtain ⟨fragment, read⟩ := h.self.isLocal raw met
    have stays : Stays (plan.origin plan.root) raw :=
      ⟨by rw [start], Reference.isLocalText_of_inFile read⟩
    rw [Function.comp_apply, same, localForm, if_pos stays]
    rfl

/-- A target is brought in as the definition that was moved. -/
theorem inlined_eq (h : Mergeable files plan document) (unrepeated : document.Unrepeated)
    (account : Account files (plan.asRoot document) (directory plan.root) targets names m)
    {t : Resolved} (brought : t ∈ targets) {name : String} {node : Json} {p : Path}
    (stands : Stands plan document t name node p) :
    t.node.mapRefs (localForm files (plan.asRoot document) names t.origin) = node := by
  have plain := (unrepeated_definitions unrepeated).2 _ (Table.mem_of_get?_eq_some stands.defined)
  have settled := account.settledTargets t brought
  rw [stands.isOrigin, stands.isNode] at settled ⊢
  rw [Json.mapRefs_mapRefs]
  refine (Json.mapRefs_congr ?_).trans (Json.mapRefs_id plain)
  intro raw met
  obtain ⟨other, defined, rfl⟩ := h.self.inside name node stands.defined raw met
  apply h.localForm_eq account (isFile_of_stands stands) defined
  apply settled
  rw [Json.refs_mapRefs]
  exact List.mem_map_of_mem met

/-- Every definition that is moved and that references lead to is brought in. -/
theorem brought_of_fromRoot (h : Mergeable files plan document)
    (account : Account files (plan.asRoot document) (directory plan.root) targets names m)
    {name : String} (reachable : plan.FromRoot document name) {node : Json} {p : Path}
    (found : (definitionsOf document).get? name = some node) (home : plan.home name = some p) :
    name ∈ targets.map (·.name) := by
  have start : plan.origin plan.root = ⟨none, directory plan.root⟩ := by
    simp [Plan.origin, Plan.outside]
  induction reachable generalizing node p with
  | root met =>
    apply (h.named_of_settled account (Or.inl rfl) found home ?_).2
    rw [start]
    apply account.settledRoot
    have inRoot : (plan.asRoot document).document = plan.rootDocument document := rfl
    rw [inRoot, Plan.rootDocument, Json.refs_mapRefs]
    exact List.mem_map_of_mem met
  | through _ moved defined met ih =>
    obtain ⟨s, brought, isName⟩ := List.mem_map.mp (ih defined moved)
    obtain ⟨before, node', p', stands⟩ := h.stands_of_reached (account.reached s brought).1
    have same : before = _ := stands.isName.symm.trans isName
    subst same
    have settled := account.settledTargets s brought
    rw [stands.isOrigin, stands.isNode] at settled
    apply (h.named_of_settled account (isFile_of_stands stands) found home ?_).2
    apply settled
    have sameNode := stands.defined
    rw [defined] at sameNode
    cases sameNode
    rw [Json.refs_mapRefs]
    exact List.mem_map_of_mem met

/-- The definitions that are brought in are those that were moved. -/
theorem mem_inlined_iff (h : Mergeable files plan document) (unrepeated : document.Unrepeated)
    (account : Account files (plan.asRoot document) (directory plan.root) targets names m)
    {e : String × Json} :
    e ∈ m.inlined ↔ e ∈ definitionsOf document ∧ (plan.home e.1).isSome = true := by
  obtain ⟨unique, _⟩ := unrepeated_definitions unrepeated
  rw [account.inlined, List.mem_map]
  constructor
  · rintro ⟨t, place, rfl⟩
    obtain ⟨name, node, p, stands⟩ := h.stands_of_reached (account.reached t place).1
    have same := h.inlined_eq unrepeated account place stands
    have entry := Table.mem_of_get?_eq_some stands.defined
    rw [← stands.isName] at entry
    refine ⟨?_, ?_⟩
    · exact same ▸ entry
    · simp [stands.isName, stands.home]
  · rintro ⟨entry, moved⟩
    obtain ⟨name, node⟩ := e
    obtain ⟨p, home⟩ := Option.isSome_iff_exists.mp moved
    have found := (Table.get?_eq_some_iff unique).mpr entry
    obtain ⟨t, place, rfl⟩ := List.mem_map.mp
      (h.brought_of_fromRoot account (h.split.reachable name node p found home) found home)
    obtain ⟨name', node', p', stands⟩ := h.stands_of_reached (account.reached t place).1
    have same := stands.defined
    rw [← stands.isName, found] at same
    obtain rfl := Option.some.inj same
    exact ⟨t, place, by rw [← h.inlined_eq unrepeated account place stands]⟩

/-- No definition that is brought in stands in the root. -/
theorem inlined_disjoint (h : Mergeable files plan document) (unrepeated : document.Unrepeated)
    (account : Account files (plan.asRoot document) (directory plan.root) targets names m) :
    ∀ key ∈ Table.keys m.inlined, key ∉
      Table.keys ((definitionsOf document).filter fun entry => (plan.home entry.1).isNone) := by
  intro key member kept
  obtain ⟨e, inlined, rfl⟩ := List.mem_map.mp member
  obtain ⟨e', inRoot, same⟩ := List.mem_map.mp kept
  have moved := ((h.mem_inlined_iff unrepeated account).mp inlined).2
  have stays := (List.mem_filter.mp inRoot).2
  rw [same, Option.isNone_iff_eq_none] at stays
  rw [stays] at moved
  cases moved

/-- The definitions of the root and those that are brought in are all that there were. -/
theorem kept_append_inlined_perm (h : Mergeable files plan document)
    (unrepeated : document.Unrepeated)
    (account : Account files (plan.asRoot document) (directory plan.root) targets names m) :
    ((definitionsOf document).filter (fun entry => (plan.home entry.1).isNone) ++ m.inlined).Perm
      (definitionsOf document) := by
  obtain ⟨unique, _⟩ := unrepeated_definitions unrepeated
  have moved : m.inlined.Perm
      ((definitionsOf document).filter fun entry => (plan.home entry.1).isSome) := by
    rw [List.perm_ext_iff_of_nodup (List.Nodup.of_map _ account.keys_nodup)
      (.filter _ (List.Nodup.of_map _ unique))]
    intro e
    rw [List.mem_filter, h.mem_inlined_iff unrepeated account]
  have split := List.filter_append_perm (fun entry : String × Json => (plan.home entry.1).isNone)
    (definitionsOf document)
  simp only [Option.not_isNone] at split
  exact (moved.append_left _).trans split

end Mergeable

/-- What merging a document that was split comes to is the document again, with its definitions in
some order. -/
theorem Mergeable.document_of_split (h : Mergeable files plan document)
    (unrepeated : document.Unrepeated) {m : Merged}
    (merged : result files (plan.rootDocument document) (some plan.root)
      (directory plan.root) = .ok m) :
    plan.MovesObjects document ∧ m.path = some plan.root ∧
      ∃ schemas, schemas.Perm (definitionsOf document) ∧
        m.document = withDefinitions (fun _ => schemas) document := by
  obtain ⟨path, targets, names, account⟩ := account_of_ok merged
  have account : Account files (plan.asRoot document) (directory plan.root) targets names m := account
  have brought := fun e => @mem_inlined_iff _ _ _ _ _ _ h unrepeated account e
  have objects : plan.MovesObjects document := by
    intro name node p found home
    exact account.objects _ ((brought (name, node)).mpr
      ⟨Table.mem_of_get?_eq_some found, by rw [home]; rfl⟩)
  refine ⟨objects, path, _, h.kept_append_inlined_perm unrepeated account, ?_⟩
  have table : m.inlined ≠ [] → definitionsOf document ≠ [] := by
    intro some nothing
    obtain ⟨e, member⟩ := List.exists_mem_of_ne_nil _ some
    have entry := ((brought e).mp member).1
    rw [nothing] at entry
    cases entry
  have result := @addDefinitions_withDefinitions
    (fun schemas => schemas.filter fun entry => (plan.home entry.1).isNone) document _ table
  have same : addDefinitions (plan.kept document) m.inlined = .ok m.document := by
    rw [← h.rootDocument_mapRefs unrepeated account]
    exact account.document
  rw [Plan.kept, result] at same
  rw [← Except.ok.inj same]
  apply withDefinitions_congr
  exact Table.addAll_of_disjoint account.keys_nodup (h.inlined_disjoint unrepeated account)

/-- A document that refers to no other file is not changed by merging. -/
theorem document_of_local {file : Option Path} {baseDir : Path} {m : Merged}
    (unrepeated : document.Unrepeated) (isLocal : ∀ raw ∈ document.refs, Reference.IsLocalText raw)
    (merged : result files document file baseDir = .ok m) :
    m.document = document ∧ m.path = file := by
  obtain ⟨path, targets, names, account⟩ := account_of_ok merged
  refine ⟨?_, path⟩
  have none : ∀ t, ¬ Reached files (Root.of document file) baseDir t := by
    intro t reached
    induction reached with
    | inRoot met moves => exact moves ⟨rfl, isLocal _ met⟩
    | inTarget _ _ _ _ _ ih => exact ih
  have nothing : targets = [] := by
    apply List.eq_nil_iff_forall_not_mem.mpr
    exact fun t member => none t (account.reached t member).1
  have added := account.document
  have inlined := account.inlined
  rw [nothing, List.map_nil] at inlined
  rw [inlined] at added
  have same : document.mapRefs (localForm files (Root.of document file) names ⟨.none, baseDir⟩) =
      document := by
    refine (Json.mapRefs_congr ?_).trans (Json.mapRefs_id unrepeated)
    intro raw met
    have stays : Stays ⟨.none, baseDir⟩ raw := ⟨rfl, isLocal raw met⟩
    rw [localForm, if_pos stays]
    rfl
  rw [show (Root.of document file).document = document from rfl, same] at added
  exact (Except.ok.inj added).symm

end ApiGraph.Merge
