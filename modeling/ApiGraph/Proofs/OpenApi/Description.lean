import ApiGraph.OpenApi.Description
import ApiGraph.Proofs.Json.Record
import ApiGraph.Proofs.Merge.Definitions

/-! How the definitions of a description are read. Each is read for itself, so those of a document
with its definitions in another order are read in that order (`definitions_reordered`), and those of
a document with a part of its definitions are that part (`definitions_filter`). -/

namespace ApiGraph

namespace Description

open Merge (withDefinitions definitionsOf)

/-- Reads one entry. -/
def readEntry {α : Type} (part : String → Part) (read : Json → Except Mismatch α)
    (entry : String × Json) : Except Fault (String × α) :=
  ((read entry.2).mapError (.malformed (part entry.1))).map (entry.1, ·)

theorem readEntries_eq_mapM {α : Type} (part : String → Part) (read : Json → Except Mismatch α)
    (entries : List (String × Json)) :
    readEntries part read entries = entries.mapM (readEntry part read) := by
  induction entries with
  | nil => rfl
  | cons entry rest ih =>
    obtain ⟨name, j⟩ := entry
    rw [readEntries, List.mapM_cons, readEntry, ← ih]
    cases (read j).mapError (Fault.malformed (part name)) with
    | error fault => rfl
    | ok value => rfl

theorem readEntry_eq_ok {α : Type} {part : String → Part} {read : Json → Except Mismatch α}
    {entry : String × Json} {value : String × α} :
    readEntry part read entry = .ok value ↔ entry.1 = value.1 ∧ read entry.2 = .ok value.2 := by
  rw [readEntry]
  cases read entry.2 with
  | error mismatch => simp [Except.map, Except.mapError]
  | ok a => simp [Except.map, Except.mapError, Prod.ext_iff]

/-- Every entry is read to one of the values. -/
theorem mem_readEntries {α : Type} {part : String → Part} {read : Json → Except Mismatch α}
    {raw : Table Json} {values : List (String × α)} (h : readEntries part read raw = .ok values)
    {name : String} {j : Json} {a : α} (member : (name, j) ∈ raw) (isRead : read j = .ok a) :
    (name, a) ∈ values := by
  rw [readEntries_eq_mapM] at h
  exact (mem_of_mapM h _).mpr ⟨(name, j), member, readEntry_eq_ok.mpr ⟨rfl, isRead⟩⟩

/-- Entries that are read to related values. -/
theorem exists_readEntries {α : Type} {part : String → Part} {read : Json → Except Mismatch α}
    {related : String × α → String × α → Prop} {raw raw' : Table Json}
    (each : List.Forall₂ (fun entry entry' => entry'.1 = entry.1 ∧
      ∀ a, read entry.2 = .ok a → ∃ a', read entry'.2 = .ok a' ∧
        related (entry.1, a) (entry.1, a')) raw raw')
    {values : List (String × α)} (h : readEntries part read raw = .ok values) :
    ∃ values', readEntries part read raw' = .ok values' ∧
      List.Forall₂ related values values' := by
  induction each generalizing values with
  | nil =>
    cases h
    exact ⟨[], rfl, .nil⟩
  | @cons entry entry' _ _ first _ ih =>
    obtain ⟨name, j⟩ := entry
    obtain ⟨name', j'⟩ := entry'
    obtain ⟨rfl, first⟩ := first
    obtain ⟨a, isRead, h⟩ := bind_eq_ok.mp h
    obtain ⟨others, later, h⟩ := bind_eq_ok.mp h
    cases h
    obtain ⟨a', isRead', isRelated⟩ := first a (mapError_eq_ok.mp isRead)
    obtain ⟨others', later', areRelated⟩ := ih later
    refine ⟨(name', a') :: others', ?_, .cons isRelated areRelated⟩
    rw [readEntries, mapError_eq_ok.mpr isRead', ok_bind, later']
    rfl

theorem definitionTable_eq_ok {d : Description} {t : Table Json} (h : d.definitionTable = .ok t) :
    t = definitionsOf d.document := by
  rw [definitionTable] at h
  rw [definitionsOf]
  cases found : d.document.pointer? definitionsPointer.toList with
  | none =>
    rw [found] at h
    cases h
    rfl
  | some j =>
    rw [found] at h
    cases j with
    | object fields =>
      cases h
      rfl
    | _ => cases h

/-- The definitions of a document are read in their order, each for itself. -/
theorem mapM_of_definitions {d : Description} {definitions : Table Schema}
    (h : d.definitions = .ok definitions) :
    (definitionsOf d.document).mapM (readEntry .definition Schema.ofJson) = .ok definitions := by
  obtain ⟨t, isTable, h⟩ := bind_eq_ok.mp h
  rw [← definitionTable_eq_ok isTable, ← readEntries_eq_mapM]
  exact h

theorem keys_definitions {d : Description} {definitions : Table Schema}
    (h : d.definitions = .ok definitions) :
    definitions.keys = (definitionsOf d.document).keys := by
  have read := mapM_of_definitions h
  generalize definitionsOf d.document = nodes at read
  clear h
  induction nodes generalizing definitions with
  | nil =>
    cases read
    rfl
  | cons entry rest ih =>
    obtain ⟨definition, others, first, later, rfl⟩ := mapM_cons_eq_ok.mp read
    have name := (readEntry_eq_ok.mp first).1
    have names := ih later
    simp only [Table.keys, List.map_cons] at names ⊢
    rw [name, names]

/-- A definition is read from what stands under its name. -/
theorem exists_node {d : Description} {definitions : Table Schema}
    (h : d.definitions = .ok definitions) {name : String} {schema : Schema}
    (member : (name, schema) ∈ definitions) :
    ∃ node, (name, node) ∈ definitionsOf d.document ∧ Schema.ofJson node = .ok schema := by
  obtain ⟨⟨first, node⟩, inTable, found⟩ := (mem_of_mapM (mapM_of_definitions h) _).mp member
  obtain ⟨rfl, read⟩ := readEntry_eq_ok.mp found
  exact ⟨node, inTable, read⟩

/-- Under each name stands what is read from the document under that name. -/
theorem rel_definitions {d : Description} {definitions : Table Schema}
    (h : d.definitions = .ok definitions) (name : String) :
    Option.Rel (fun node schema => Schema.ofJson node = .ok schema)
      ((definitionsOf d.document).get? name) (definitions.get? name) := by
  have read := mapM_of_definitions h
  generalize definitionsOf d.document = nodes at read
  clear h
  induction nodes generalizing definitions with
  | nil =>
    cases read
    exact .none
  | cons entry rest ih =>
    obtain ⟨⟨first, schema⟩, others, isFirst, later, rfl⟩ := mapM_cons_eq_ok.mp read
    obtain ⟨key, node⟩ := entry
    obtain ⟨rfl, isRead⟩ := readEntry_eq_ok.mp isFirst
    by_cases here : key = name
    · subst key
      rw [Table.get?_cons_self, Table.get?_cons_self]
      exact .some isRead
    · rw [Table.get?_cons_ne here, Table.get?_cons_ne here]
      exact ih later

/-- A document has definitions that can be read whatever they are changed to, or never. -/
theorem exists_definitionTable_iff (change : Table Json → Table Json) (document : Json)
    (path path' : Option Path) :
    (∃ t, definitionTable ⟨withDefinitions change document, path'⟩ = .ok t) ↔
      ∃ t, definitionTable ⟨document, path⟩ = .ok t := by
  rcases Merge.hasTable_or_unchanged document with ⟨top, components, schemas, table⟩ | ⟨same, _⟩
  · have after := Merge.hasTable_relaid top components (change schemas)
    rw [Merge.withDefinitions_eq table, definitionTable, definitionTable, table.pointer?,
      after.pointer?]
    exact ⟨fun _ => ⟨_, rfl⟩, fun _ => ⟨_, rfl⟩⟩
  · rw [same]
    rfl

/-- A change of the definitions leaves alone what a document says besides them. -/
theorem besides_definitions (change : Table Json → Table Json) (document : Json)
    (path path' : Option Path) :
    version? ⟨withDefinitions change document, path'⟩ = version? ⟨document, path⟩ ∧
      servers ⟨withDefinitions change document, path'⟩ = servers ⟨document, path⟩ ∧
      paths ⟨withDefinitions change document, path'⟩ = paths ⟨document, path⟩ := by
  have field : ∀ key, key ≠ "components" →
      (withDefinitions change document).get? key = document.get? key :=
    fun key other => Merge.get?_withDefinitions _ document other
  refine ⟨?_, ?_, ?_⟩
  · rw [version?, version?, field "openapi" (by decide)]
  · rw [servers, servers, field "servers" (by decide)]
  · rw [paths, paths, field "paths" (by decide)]

theorem definitions_eq_ok_iff {d : Description} {definitions : Table Schema} :
    d.definitions = .ok definitions ↔ (∃ t, d.definitionTable = .ok t) ∧
      (definitionsOf d.document).mapM (readEntry .definition Schema.ofJson) = .ok definitions := by
  constructor
  · intro h
    obtain ⟨t, isTable, _⟩ := bind_eq_ok.mp h
    exact ⟨⟨t, isTable⟩, mapM_of_definitions h⟩
  · rintro ⟨⟨t, isTable⟩, read⟩
    rw [← definitionTable_eq_ok isTable] at read
    rw [Description.definitions, isTable, ok_bind, readEntries_eq_mapM, read]

/-- Definitions in another order are read in that order. -/
theorem definitions_reordered {document : Json} {path : Option Path} {schemas : Table Json}
    (perm : schemas.Perm (definitionsOf document)) {definitions : Table Schema}
    (h : Description.definitions ⟨document, path⟩ = .ok definitions) (path' : Option Path) :
    ∃ definitions', Description.definitions ⟨withDefinitions (fun _ => schemas) document, path'⟩ =
      .ok definitions' ∧ definitions'.Perm definitions := by
  obtain ⟨there, read⟩ := definitions_eq_ok_iff.mp h
  obtain ⟨definitions', read', same⟩ := mapM_perm perm.symm read
  refine ⟨definitions', definitions_eq_ok_iff.mpr ⟨?_, ?_⟩, same.symm⟩
  · exact (exists_definitionTable_iff _ document path path').mpr there
  · rw [Merge.definitionsOf_reordered perm]
    exact read'

section

variable {document : Json} {path path' path'' : Option Path} {keep : String → Bool}

/-- Some of the definitions are read to what they are among all. -/
theorem definitions_filter {definitions : Table Schema}
    (h : Description.definitions ⟨document, path⟩ = .ok definitions) :
    Description.definitions
        ⟨withDefinitions (·.filter fun entry => keep entry.1) document, path'⟩ =
      .ok (definitions.filter fun entry => keep entry.1) := by
  obtain ⟨there, read⟩ := definitions_eq_ok_iff.mp h
  refine definitions_eq_ok_iff.mpr
    ⟨(exists_definitionTable_iff _ document path path').mpr there, ?_⟩
  rw [Merge.definitionsOf_withDefinitions rfl]
  refine mapM_filter (fun entry : String × Schema => keep entry.1) (fun _ _ _ _ => id) ?_ read
  intro entry value found
  rw [(readEntry_eq_ok.mp found).1]

/-- All definitions can be read if some of them and the others can. -/
theorem exists_definitions {first second : Table Schema}
    (h : Description.definitions
      ⟨withDefinitions (·.filter fun entry => keep entry.1) document, path'⟩ = .ok first)
    (h' : Description.definitions
      ⟨withDefinitions (·.filter fun entry => !keep entry.1) document, path''⟩ = .ok second) :
    ∃ definitions, Description.definitions ⟨document, path⟩ = .ok definitions := by
  obtain ⟨there, read⟩ := definitions_eq_ok_iff.mp h
  obtain ⟨_, read'⟩ := definitions_eq_ok_iff.mp h'
  rw [Merge.definitionsOf_withDefinitions rfl] at read read'
  obtain ⟨definitions, all⟩ :=
    exists_mapM_of_filter (fun _ _ _ _ => id) (fun _ _ _ _ => id) read read'
  exact ⟨definitions, definitions_eq_ok_iff.mpr
    ⟨(exists_definitionTable_iff _ document path path').mp there, all⟩⟩

end

end Description

namespace Schema

theorem readingFields_eq (fields : List (String × Json)) :
    readingFields fields = fields.map fun entry => (entry.1, reading entry.2) := by
  induction fields with
  | nil => rfl
  | cons entry rest ih => rw [readingFields, ih, List.map_cons]

theorem readingItems_eq (items : List Json) : readingItems items = items.map reading := by
  induction items with
  | nil => rfl
  | cons item rest ih => rw [readingItems, ih, List.map_cons]

theorem filter_readingFields (names : List String) (fields : List (String × Json)) :
    (readingFields fields).filter (fun entry => entry.1 ∈ names) =
      (fields.filter fun entry => entry.1 ∈ names).map fun entry => (entry.1, reading entry.2) := by
  rw [readingFields_eq, List.filter_map]
  rfl

/-- Of an object that is read as a schema, neither the order of its entries nor what is no field
counts. -/
theorem ofJson_reordered {j j' : Json} (h : Record.Resembles fieldNames j j') :
    Gives (ofJson j) (ofJson j') := by
  cases h with
  | same => exact Gives.refl _
  | object same _ =>
    intro schema read
    obtain ⟨r, isRecord, read⟩ := bind_eq_ok.mp read
    have sameReadings := same.map fun entry => (entry.1, reading entry.2)
    rw [← filter_readingFields, ← filter_readingFields] at sameReadings
    obtain ⟨r', isRecord', held⟩ := Record.ofFields_perm sameReadings isRecord
    refine bind_eq_ok.mpr ⟨r', isRecord', ?_⟩
    rw [ofRecord_congr held]
    exact read

end Schema

end ApiGraph
