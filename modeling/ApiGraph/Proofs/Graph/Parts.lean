import ApiGraph.Graph.Basic
import ApiGraph.Proofs.Endpoint.Arranged
import ApiGraph.Proofs.Json.Written

/-! The parts of a graph as JSON. Each part reads back as it was written, if its tables have no key
twice and its numbers fit their words; `Lawful` says so for each kind of part. -/

namespace ApiGraph

open Json

/-! Columns. -/

def Column.Lawful (c : Column) : Prop := ∀ n ∈ c.maxLength, n < Decimal.twoTo 32

instance (c : Column) : Decidable c.Lawful :=
  inferInstanceAs (Decidable (∀ n ∈ c.maxLength, n < Decimal.twoTo 32))

theorem ColumnType.toChoice_name (t : ColumnType) :
    toChoice ColumnType.named (.string t.name) = .ok t := by
  cases t <;> rfl

theorem Column.ofJson_toJson {c : Column} (h : c.Lawful) : Column.ofJson c.toJson = .ok c := by
  rw [toJson, ofJson, Record.ofJson_object _ (by decide), ok_bind]
  · have maxLength := elim_orNull (fun n member => toNatBelow_nat (h n member)) nofun
    simp [Table.get?_append, Table.get?_cons, ColumnType.toChoice_name, maxLength, ok_bind]
  · simp only [Table.keys_append]
    exact (((((List.Sublist.refl ["type", "nullable"]).append (keys_optionalField _ _)).append
      (keys_optionalField _ _)).append (keys_optionalField _ _)).append
      (keys_optionalField _ _)).append (keys_optionalField _ _)

theorem Column.plain {c : Column} (h : c.Lawful) (depth : Nat) : Plain (depth + 2) c.toJson := by
  have maxLength : ∀ n ∈ c.maxLength, Plain (depth + 1) (nat n) := fun n member =>
    plain_nat _ (Nat.le_trans (Nat.le_of_lt (h n member)) (by decide))
  refine PlainFields.object ?_
  simpa using maxLength

/-- Columns under names that do not repeat. -/
def LawfulColumns (t : Table Column) : Prop := t.keys.Nodup ∧ ∀ entry ∈ t, entry.2.Lawful

instance (t : Table Column) : Decidable (LawfulColumns t) :=
  inferInstanceAs (Decidable (_ ∧ _))

theorem toTable_columns {t : Table Column} (h : LawfulColumns t) :
    toTable Column.ofJson (ofTable Column.toJson t) = .ok t :=
  toTable_ofTable h.1 fun entry member => Column.ofJson_toJson (h.2 entry member)

theorem plain_columns {t : Table Column} (h : LawfulColumns t) (depth : Nat) :
    Plain (depth + 3) (ofTable Column.toJson t) :=
  plain_ofTable fun entry member => Column.plain (h.2 entry member) depth

/-! Relationships. -/

theorem Cardinality.toChoice_name (c : Cardinality) :
    toChoice Cardinality.named (.string c.name) = .ok c := by
  cases c <;> rfl

theorem Relationship.keys_toFields (r : Relationship) :
    (Table.keys r.toFields).Sublist fieldNames := by
  simp only [toFields, Table.keys_append]
  exact (((List.Sublist.refl ["target", "cardinality"]).append (keys_optionalField _ _)).append
    (List.Sublist.refl ["uses_list"])).append (keys_optionalField _ _)

/-- A relationship is read from its fields, whatever stands before them. -/
theorem Relationship.ofRecord_toFields (r : Relationship) (before : Table Json)
    (apart : ∀ name ∈ fieldNames, Table.get? before name = none) :
    ofRecord ⟨before ++ r.toFields⟩ = .ok r := by
  have target := apart "target" (by decide)
  have cardinality := apart "cardinality" (by decide)
  have backReference := apart "back_reference" (by decide)
  have usesList := apart "uses_list" (by decide)
  have joinTable := apart "join_table" (by decide)
  simp [ofRecord, toFields, Table.get?_append, Table.get?_cons, Cardinality.toChoice_name, ok_bind,
    target, cardinality, backReference, usesList, joinTable]

theorem Relationship.ofJson_toJson (r : Relationship) : Relationship.ofJson r.toJson = .ok r := by
  rw [toJson, ofJson, Record.ofJson_object r.keys_toFields (by decide), ok_bind]
  exact r.ofRecord_toFields [] fun _ _ => rfl

theorem Relationship.plain_toFields (r : Relationship) (depth : Nat) :
    PlainFields depth r.toFields := by
  simp [toFields]

theorem RelationshipEntry.ofJson_toJson (e : RelationshipEntry) :
    RelationshipEntry.ofJson e.toJson = .ok e := by
  have declared := (List.Sublist.refl ["source", "name"]).append e.relationship.keys_toFields
  rw [toJson, ofJson, Record.ofFields_eq _ (by decide), ok_bind]
  · rw [e.relationship.ofRecord_toFields _ (by simp [Relationship.fieldNames, Table.get?_cons])]
    simp [Table.get?_cons, ok_bind]
  · simpa using declared

theorem RelationshipEntry.plain (e : RelationshipEntry) (depth : Nat) :
    Plain (depth + 1) e.toJson := by
  have fields := e.relationship.plain_toFields depth
  refine PlainFields.object ?_
  simpa using fields

/-! Entities and join tables. -/

structure Entity.Lawful (e : Entity) : Prop where
  columns : LawfulColumns e.columns
  relationships : e.relationships.keys.Nodup

instance (e : Entity) : Decidable e.Lawful :=
  decidable_of_iff (LawfulColumns e.columns ∧ e.relationships.keys.Nodup)
    ⟨fun h => ⟨h.1, h.2⟩, fun h => ⟨h.columns, h.relationships⟩⟩

theorem toTable_relationships {t : Table Relationship} (unique : t.keys.Nodup) :
    toTable Relationship.ofJson (ofTable Relationship.toJson t) = .ok t :=
  toTable_ofTable unique fun entry _ => entry.2.ofJson_toJson

theorem Entity.ofJson_toJson {e : Entity} (h : e.Lawful) : Entity.ofJson e.toJson = .ok e := by
  have columns := toTable_columns h.columns
  have relationships := toTable_relationships h.relationships
  rw [toJson, ofJson, Record.ofJson_object _ (by decide), ok_bind]
  · simp [Table.get?_append, Table.get?_cons, ok_bind, columns, relationships]
  · simp only [Table.keys_append]
    exact ((List.Sublist.refl ["name", "resource", "namespace", "table_name", "primary_key"]).append
      (keys_optionalField _ _)).append (List.Sublist.refl ["columns", "relationships"])

theorem Entity.plain {e : Entity} (h : e.Lawful) (depth : Nat) : Plain (depth + 4) e.toJson := by
  have columns := plain_columns h.columns depth
  have relationships : Plain (depth + 3) (ofTable Relationship.toJson e.relationships) :=
    plain_ofTable fun entry _ => (entry.2.plain_toFields (depth + 1)).object
  refine PlainFields.object ?_
  simpa using ⟨columns, relationships⟩

def JoinTable.Lawful (t : JoinTable) : Prop := LawfulColumns t.columns

instance (t : JoinTable) : Decidable t.Lawful := inferInstanceAs (Decidable (LawfulColumns t.columns))

theorem JoinTable.ofJson_toJson {t : JoinTable} (h : t.Lawful) :
    JoinTable.ofJson t.toJson = .ok t := by
  have entities : entitiesOfJson (ofTexts [t.entities.1, t.entities.2]) = .ok t.entities := by
    rw [entitiesOfJson, toList_ofTexts]
    rfl
  have columns := toTable_columns h
  rw [toJson, ofJson, Record.ofJson_object _ (by decide), ok_bind]
  · simp [Table.get?_cons, ok_bind, entities, columns]
  · exact List.Sublist.refl _

theorem JoinTable.plain {t : JoinTable} (h : t.Lawful) (depth : Nat) :
    Plain (depth + 4) t.toJson := by
  have columns := plain_columns h depth
  refine PlainFields.object ?_
  simpa using columns

/-! Endpoints. -/

def EndpointResponse.Lawful (r : EndpointResponse) : Prop := r.successCode < Decimal.twoTo 16

instance (r : EndpointResponse) : Decidable r.Lawful :=
  inferInstanceAs (Decidable (r.successCode < Decimal.twoTo 16))

theorem EndpointResponse.ofJson_toJson {r : EndpointResponse} (h : r.Lawful) :
    EndpointResponse.ofJson r.toJson = .ok r := by
  have code := toNatBelow_nat h
  rw [toJson, ofJson, Record.ofJson_object _ (by decide), ok_bind]
  · simp [Table.get?_cons, ok_bind, code]
  · exact (List.Sublist.refl ["success_code"]).append (keys_optionalField "entity" _)

theorem EndpointResponse.plain {r : EndpointResponse} (h : r.Lawful) (depth : Nat) :
    Plain (depth + 1) r.toJson := by
  have code : Plain depth (nat r.successCode) :=
    plain_nat _ (Nat.le_trans (Nat.le_of_lt h) (by decide))
  refine PlainFields.object ?_
  simpa using code

def EndpointMethod.Lawful (m : EndpointMethod) : Prop := ∀ r ∈ m.response, r.Lawful

instance (m : EndpointMethod) : Decidable m.Lawful :=
  inferInstanceAs (Decidable (∀ r ∈ m.response, r.Lawful))

theorem EndpointMethod.ofJson_toJson {m : EndpointMethod} (h : m.Lawful) :
    EndpointMethod.ofJson m.toJson = .ok m := by
  have response := elim_orNull (fun r member => EndpointResponse.ofJson_toJson (h r member)) nofun
  have queryParams : (if m.queryParams = [] then none else some (ofTexts m.queryParams)).elim
      (.ok []) (toList toText) = .ok m.queryParams := elim_nonEmpty (toList_ofTexts _)
  rw [toJson, ofJson, Record.ofJson_object _ (by decide), ok_bind]
  · simp [Table.get?_append, Table.get?_cons, ok_bind, response, queryParams]
  · simp only [Table.keys_append]
    exact (((List.Sublist.refl ["supported"]).append (keys_optionalField _ _)).append
      (keys_optionalField _ _)).append (keys_nonEmptyField _ _ _)

theorem EndpointMethod.plain {m : EndpointMethod} (h : m.Lawful) (depth : Nat) :
    Plain (depth + 2) m.toJson := by
  have response : ∀ r ∈ m.response, Plain (depth + 1) r.toJson := fun r member =>
    EndpointResponse.plain (h r member) depth
  refine PlainFields.object ?_
  simpa using response

theorem HttpMethod.ofName?_name (m : HttpMethod) : ofName? m.name = some m := by
  cases m <;> rfl

structure Endpoint.Lawful (e : Endpoint) : Prop where
  ordered : (e.methods.map Prod.fst).Sublist HttpMethod.alphabetical
  methods : ∀ entry ∈ e.methods, entry.2.Lawful

instance (e : Endpoint) : Decidable e.Lawful :=
  decidable_of_iff ((e.methods.map Prod.fst).Sublist HttpMethod.alphabetical ∧
      ∀ entry ∈ e.methods, entry.2.Lawful)
    ⟨fun h => ⟨h.1, h.2⟩, fun h => ⟨h.ordered, h.methods⟩⟩

theorem EndpointMethod.tableOfJson_methods {methods : List (HttpMethod × EndpointMethod)}
    (ordered : (methods.map Prod.fst).Sublist HttpMethod.alphabetical)
    (each : ∀ entry ∈ methods, entry.2.Lawful) :
    tableOfJson (.object (methods.map fun (m, method) => (m.name, method.toJson))) =
      .ok methods := by
  have entries : tableOfEntries (methods.map fun (m, method) => (m.name, method.toJson)) =
      .ok methods := by
    clear ordered
    induction methods with
    | nil => rfl
    | cons entry rest ih =>
      rw [List.map_cons, tableOfEntries, HttpMethod.ofName?_name]
      simp [EndpointMethod.ofJson_toJson (each entry (by simp)),
        ih fun other member => each other (by simp [member]), ok_bind]
  rw [tableOfJson, entries]
  exact congrArg Except.ok (arrange_of_sublist ordered)

theorem Endpoint.ofJson_toJson {e : Endpoint} (h : e.Lawful) : Endpoint.ofJson e.toJson = .ok e := by
  have methods := EndpointMethod.tableOfJson_methods h.ordered h.methods
  rw [toJson, ofJson, Record.ofJson_object _ (by decide), ok_bind]
  · simp [Table.get?_append, Table.get?_cons, ok_bind, methods]
  · simp only [Table.keys_append]
    exact ((List.Sublist.refl ["path", "namespace"]).append (keys_optionalField _ _)).append
      (List.Sublist.refl ["methods"])

theorem Endpoint.plain {e : Endpoint} (h : e.Lawful) (depth : Nat) : Plain (depth + 4) e.toJson := by
  have methods : Plain (depth + 3)
      (.object (e.methods.map fun (m, method) => (m.name, method.toJson))) := by
    refine .object fun field member => ?_
    obtain ⟨entry, there, rfl⟩ := List.mem_map.mp member
    exact EndpointMethod.plain (h.methods entry there) depth
  refine PlainFields.object ?_
  simpa using methods

/-! Namespaces, servers and options. -/

theorem Namespace.ofJson_toJson (n : Namespace) : Namespace.ofJson n.toJson = .ok n := by
  rw [toJson, ofJson, Record.ofJson_object _ (by decide), ok_bind]
  · simp [Table.get?_cons, ok_bind]
  · exact List.Sublist.refl _

theorem Namespace.plain (n : Namespace) (depth : Nat) : Plain (depth + 2) n.toJson := by
  refine PlainFields.object ?_
  simp

def Server.written (s : Server) : Table Json :=
  [("url", .string s.url)] ++
  optionalField "description" (s.description.map .string) ++
  optionalField "x-microservice" (s.microservice.map fun name => .object [("name", .string name)])

theorem Server.toJson_eq (s : Server) : s.toJson = .object s.written := rfl

theorem Server.keys_written (s : Server) :
    (Table.keys s.written).Sublist ["url", "description", "x-microservice"] := by
  simp only [written, Table.keys_append]
  exact ((List.Sublist.refl ["url"]).append (keys_optionalField _ _)).append
    (keys_optionalField _ _)

theorem Server.ofJson_toJson (s : Server) : Server.ofJson s.toJson = .ok s := by
  have microservice : s.microservice.elim (.ok none)
      (orNull microserviceOfJson ∘ fun name => .object [("name", .string name)]) =
        .ok s.microservice := by
    refine elim_orNull (fun name _ => ?_) nofun
    rw [microserviceOfJson, Record.ofJson_object _ (by decide), ok_bind]
    · rfl
    · exact List.Sublist.refl _
  rw [toJson_eq, ofJson, Record.ofJson_object s.keys_written (by decide), ok_bind]
  simp [written, Table.get?_append, Table.get?_cons, ok_bind, microservice]

theorem Server.plain (s : Server) (depth : Nat) : Plain (depth + 2) s.toJson := by
  have microservice (name : String) : Plain (depth + 1) (.object [("name", .string name)]) :=
    PlainFields.object (by simp)
  refine PlainFields.object ?_
  simp [microservice]

theorem Naming.Templates.ofJson_toJson (t : Templates) : Templates.ofJson t.toJson = .ok t := by
  rw [toJson, ofJson, Record.ofJson_object _ (by decide), ok_bind]
  · simp [Table.get?_cons, ok_bind]
  · exact List.Sublist.refl _

structure Options.Lawful (o : Options) : Prop where
  tableNames : Table.Sorted o.tableNames
  baseClasses : Table.Sorted o.baseClasses

instance (o : Options) : Decidable o.Lawful :=
  decidable_of_iff (o.tableNames.keys.Pairwise (· < ·) ∧ o.baseClasses.keys.Pairwise (· < ·))
    ⟨fun h => ⟨h.1, h.2⟩, fun h => ⟨h.tableNames, h.baseClasses⟩⟩

theorem Options.ofJson_toJson {o : Options} (h : o.Lawful) : Options.ofJson o.toJson = .ok o := by
  have texts {t : Table String} (sorted : Table.Sorted t) :
      toSortedTable toText (ofTable .string t) = .ok t :=
    toSortedTable_ofTable sorted fun _ _ => rfl
  rw [toJson, ofJson, Record.ofJson_object _ (by decide), ok_bind]
  · simp [Table.get?_cons, ok_bind, texts h.tableNames, texts h.baseClasses,
      Naming.Templates.ofJson_toJson]
  · exact List.Sublist.refl _

theorem Options.plain (o : Options) (depth : Nat) : Plain (depth + 2) o.toJson := by
  have naming : Plain (depth + 1) o.naming.toJson := PlainFields.object (by simp)
  have texts (t : Table String) : Plain (depth + 1) (ofTable .string t) :=
    plain_ofTable fun _ _ => .string _ _
  refine PlainFields.object ?_
  simp [naming, texts]

end ApiGraph
