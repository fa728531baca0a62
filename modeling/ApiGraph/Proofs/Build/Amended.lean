import ApiGraph.Proofs.Build.Spared
import ApiGraph.Proofs.Endpoint.Spared
import ApiGraph.Proofs.Json.Fields
import ApiGraph.Proofs.OpenApi.Description

/-! Builds of a description whose document is changed at a place among its paths. `Visited` are the
places that a build comes to by the references it follows, with the fields that it reads there. If
nothing is read at the changed place through them (`Spares`), the tables stay the same, and what is
left to show are the path items (`graph_of_besides`). -/

namespace ApiGraph

namespace Description

/-- A description whose document is changed at a place among its paths. -/
def amendPaths (change : Json → Json) (way : List String) (d : Description) : Description :=
  { d with document := d.document.amendPath change ("paths" :: way) }

variable {d : Description} {change : Json → Json} {way : List String}

theorem get?_amendPaths (key : String) : (d.amendPaths change way).document.get? key =
    if "paths" = key then (d.document.get? key).map (Json.amendPath change way)
    else d.document.get? key := by
  have noIndex : Json.Pointer.index? "paths".toList = none := by decide
  rw [amendPaths]
  cases d.document with
  | object fields => exact Table.get?_amend fields "paths" (Json.amendPath change way) key
  | array items =>
    simp only [Json.amendPath, noIndex]
    exact (ite_self none).symm
  | _ => exact (ite_self none).symm

theorem pointer?_amendPaths :
    (d.amendPaths change way).document.pointer? definitionsPointer.toList =
      d.document.pointer? definitionsPointer.toList := by
  have apart : ∀ segments : List (List Char),
      segments = ["components".toList, "schemas".toList] →
      (d.amendPaths change way).document.follow segments = d.document.follow segments := by
    rintro segments rfl
    apply Json.follow_amendPath_of_apart <;> simp [Json.Pointer.keyOf, Json.Pointer.unescape]
  rw [Merge.pointer?_definitions, Merge.pointer?_definitions, apart _ rfl]

theorem definitionsOf_amendPaths :
    Merge.definitionsOf (d.amendPaths change way).document = Merge.definitionsOf d.document := by
  rw [Merge.definitionsOf, Merge.definitionsOf, pointer?_amendPaths]

/-- A document that is no object has no paths. -/
theorem document_amendPaths (shape : d.document.isObject = false) :
    (d.amendPaths change way).document = d.document := by
  have noIndex : Json.Pointer.index? "paths".toList = none := by decide
  rw [amendPaths]
  cases isDocument : d.document with
  | object fields =>
    rw [isDocument] at shape
    cases shape
  | array items => simp only [Json.amendPath, noIndex]
  | _ => rfl

/-- The path items of a description that is changed in one of them. -/
theorem entries_amendPaths (path : String) (rest : List String) :
    entries "paths" ((d.amendPaths change (path :: rest)).document.get? "paths") =
      (entries "paths" (d.document.get? "paths")).map
        (Table.amend · path (Json.amendPath change rest)) := by
  rw [get?_amendPaths, if_pos rfl]
  cases d.document.get? "paths" with
  | none => rfl
  | some j =>
    cases j with
    | array items =>
      rw [Option.map_some, Json.amendPath]
      split <;> rfl
    | _ => rfl

/-- A change among the paths is not seen where it is not read. -/
theorem lookup_amendPaths {fields : List String} {f : Fragment} (written : f.Written)
    (unread : ¬ f.Reads d.document fields ("paths" :: way)) :
    Option.Rel (Record.Resembles fields) (f.lookup d.document)
      (f.lookup (d.amendPaths change way).document) := by
  cases shape : d.document.isObject with
  | true => exact Json.lookup_amendPath written shape (fun inside => unread (Or.inl inside)) unread
  | false =>
    rw [document_amendPaths shape]
    exact Record.Resembles.rel_refl fields _

end Description

namespace Build

open Resolver (Visits)

variable {files : FileTree} {d d' : Description} {options : Options}

/-- A place of the document that a build comes to by a reference, with the fields that it reads
there. -/
inductive Visited (files : FileTree) (d : Description) : List String → Fragment → Prop
  | component {paths : Table PathItem} {fields : List String} {raw : String} {f : Fragment}
    (read : d.paths = .ok paths) (sought : (fields, raw) ∈ Endpoint.soughtRefs paths)
    (isLocal : Reference.ofText raw = .ok (.inFile f)) : Visited files d fields f
  | member {definitions : Table Schema} {options : Options} {m : Member} {raw : String}
    {ref : Reference} {f : Fragment} (read : d.definitions = .ok definitions)
    (isMember : m ∈ members definitions) (refers : m.member.ref = some raw)
    (isRef : Reference.ofText raw = .ok ref)
    (visits : Visits files (Source.scope ⟨d, definitions, options⟩)
      ⟨d.path, Source.baseDir ⟨d, definitions, options⟩⟩ ref f) :
    Visited files d Schema.fieldNames f

/-- A build reads nothing at the place through references. -/
def Spares (files : FileTree) (d : Description) (place : List String) : Prop :=
  ∀ fields f, Visited files d fields f → ¬ f.Reads d.document fields place

/-- Descriptions that are the same but for their path items. -/
structure SameBesides (files : FileTree) (d d' : Description) : Prop where
  version : checkVersion d' = checkVersion d
  definitions : d'.definitions = d.definitions
  servers : d'.servers = d.servers
  members : ∀ definitions options, d.definitions = .ok definitions →
    ∀ m ∈ members definitions, ∀ schema,
      memberSchema files ⟨d', definitions, options⟩ m.member = .ok schema ↔
        memberSchema files ⟨d, definitions, options⟩ m.member = .ok schema

theorem SameBesides.symm (same : SameBesides files d d') : SameBesides files d' d where
  version := same.version.symm
  definitions := same.definitions.symm
  servers := same.servers.symm
  members definitions options read m isMember schema :=
    (same.members definitions options (same.definitions.symm.trans read) m isMember schema).symm

/-- What is left are the path items. -/
theorem graph_of_besides (same : SameBesides files d d')
    (unique : (Merge.definitionsOf d.document).keys.Nodup)
    (alike : ∀ entities paths, d.paths = .ok paths → ∃ paths', d'.paths = .ok paths' ∧
      List.Forall₂ (Endpoint.ItemAlike d.document d'.document entities entities) paths paths') :
    Gives (graph files d options) (graph files d' options) := by
  intro g built
  obtain ⟨definitions, s, steps⟩ := steps_of_graph built
  have stand : ∀ m ∈ members definitions, ∀ schema,
      memberSchema files ⟨d, definitions, options⟩ m.member = .ok schema →
        memberSchema files ⟨d', definitions, options⟩ m.member = .ok schema :=
    fun m isMember schema => (same.members definitions options steps.read m isMember schema).mpr
  rw [← Description.keys_definitions steps.read] at unique
  refine graph_alike stand steps.read unique same.version same.definitions same.servers ?_ ?_ g
    built
  · exact fun servers entities => Endpoint.collect_alike servers options (alike entities)
  · intro servers names serving
    obtain ⟨paths, read, serving⟩ := bind_eq_ok.mp serving
    obtain ⟨paths', read', areAlike⟩ := alike [] paths read
    have sameServers : paths'.map (·.2.servers) = paths.map (·.2.servers) := by
      clear read read' serving
      induction areAlike with
      | nil => rfl
      | cons first _ ih => rw [List.map_cons, List.map_cons, first.servers, ih]
    refine bind_eq_ok.mpr ⟨paths', read', ?_⟩
    rw [sameServers]
    exact serving

/-- A description that is changed at a place among its paths at which a build reads nothing through
references is the same but for its path items. -/
theorem sameBesides_amendPaths {change : Json → Json} {way place : List String}
    (spares : Spares files d place)
    (alike : ∀ f : Fragment, f.Written → ¬ f.Reads d.document Schema.fieldNames place →
      Option.Rel (Record.Resembles Schema.fieldNames) (f.lookup d.document)
        (f.lookup (d.amendPaths change way).document)) :
    SameBesides files d (d.amendPaths change way) where
  version := by
    rw [checkVersion, checkVersion, Description.version?, Description.version?,
      Description.get?_amendPaths, if_neg (by decide)]
  definitions := by
    rw [Description.definitions, Description.definitions, Description.definitionTable,
      Description.definitionTable, Description.pointer?_amendPaths]
  servers := by
    rw [Description.servers, Description.servers, Description.get?_amendPaths,
      if_neg (by decide)]
  members := by
    intro definitions options read m isMember
    have scopes : Scope.Alike (fun f => f.Reads d.document Schema.fieldNames place)
        (Source.scope ⟨d, definitions, options⟩)
        (Source.scope ⟨d.amendPaths change way, definitions, options⟩) := ⟨rfl, rfl, alike⟩
    refine memberSchema_alike_iff scopes fun raw ref refers isRef =>
      ⟨Reference.fragment_written isRef, ?_⟩
    exact fun f visits => spares _ f (.member read isMember refers isRef visits)

end Build

end ApiGraph
