import ApiGraph.Proofs.Graph.Parts
import ApiGraph.Proofs.Json.Unrepeated
import ApiGraph.Proofs.OpenApi.Fields

/-! Schemas and path items that are written and read back. Whatever a schema was read from, its
properties have one name each at every depth and its numbers fit their words
(`Schema.lawful_of_ofJson`), and such a schema reads back as it was written
(`Schema.ofJson_toJson`). The entries of a path item that have no field of their own stand behind
its fields, and are told apart from them by their keys. What is written has no key twice, if that
holds of what was read. -/

namespace ApiGraph

open Json

namespace Schema

/-- Properties without repeated names and numbers that fit their words, at every depth, and
enumerated values for which the property holds. -/
inductive Lawful (holds : Json → Prop) : Schema → Prop
  | mk {s : Schema} (unique : (Table.keys s.properties).Nodup)
    (properties : ∀ entry ∈ s.properties, Lawful holds entry.2)
    (allOf : ∀ m ∈ s.allOf, Lawful holds m) (oneOf : ∀ m ∈ s.oneOf, Lawful holds m)
    (items : ∀ m ∈ s.items, Lawful holds m) (maxLength : ∀ n ∈ s.maxLength, n < Decimal.twoTo 32)
    (enum : ∀ v ∈ s.enum, holds v) : Lawful holds s

variable {holds : Json → Prop}

/-! Reading. -/

/-- Whatever the value is read as is lawful. -/
structure ReadsLawful (holds : Json → Prop) (j : Json) : Prop where
  value : holds j
  schema : ∀ {s}, ofJson j = .ok s → Lawful holds s
  list : ∀ {members}, toList ofJson j = .ok members → ∀ m ∈ members, Lawful holds m
  table : ∀ {t}, toTable ofJson j = .ok t → ∀ entry ∈ t, Lawful holds entry.2

theorem lawful_of_readFrom {r : Record Json} {s : Schema}
    (inherited : ∀ j, holds j → ∀ k ∈ j.children, holds k)
    (parts : ∀ entry ∈ r.fields, ReadsLawful holds entry.2) (read : ReadFrom r s) :
    Lawful holds s := by
  have lists {key : String} {members : List Schema}
      (h : r.orElse key [] (toList ofJson) = .ok members) : ∀ m ∈ members, Lawful holds m := by
    rcases Record.orElse_eq_ok h with rfl | ⟨j, found, areMembers⟩
    · exact nofun
    · exact (parts _ (Table.mem_of_get?_eq_some found)).list areMembers
  refine .mk read.keys_nodup ?_ (lists read.allOf) (lists read.oneOf) ?_ ?_ ?_
  · rcases Record.orElse_eq_ok read.properties with empty | ⟨j, found, isTable⟩
    · rw [empty]
      exact nofun
    · exact (parts _ (Table.mem_of_get?_eq_some found)).table isTable
  · intro m isItem
    obtain ⟨j, found, isSchema⟩ := exists_of_orNull read.items m isItem
    exact (parts _ (Table.mem_of_get?_eq_some found)).schema isSchema
  · intro n isLimit
    obtain ⟨j, _, isNumber⟩ := exists_of_orNull read.maxLength n isLimit
    exact lt_of_toNatBelow isNumber
  · intro v member
    rcases Record.orElse_eq_ok read.enum with empty | ⟨j, found, areValues⟩
    · rw [empty] at member
      cases member
    · obtain ⟨k, there, same⟩ := exists_of_toList areValues v member
      obtain rfl := Except.ok.inj same
      exact inherited j (parts _ (Table.mem_of_get?_eq_some found)).value k there

theorem readsLawful (inherited : ∀ j, holds j → ∀ k ∈ j.children, holds k) {j : Json}
    (whole : holds j) : ReadsLawful holds j := by
  -- What stands in a value is read as a schema, a list or a table, so all three are carried.
  induction j using induct_children with
  | step j ih =>
    have each : ∀ k ∈ j.children, ReadsLawful holds k := fun k there =>
      ih k there (inherited j whole k there)
    refine ⟨whole, fun read => ?_, fun areMembers m member => ?_, fun isTable entry member => ?_⟩
    · obtain ⟨r, isRecord, read⟩ := ofJson_eq_ok.mp read
      refine lawful_of_readFrom inherited (fun entry member => ?_) read
      exact each _ (Record.mem_children_of_ofJson isRecord member)
    · obtain ⟨k, there, isMember⟩ := exists_of_toList areMembers m member
      exact (each k there).schema isMember
    · obtain ⟨k, there, isRead⟩ := exists_of_toTable isTable entry member
      exact (each k there).schema isRead

/-- What is read of any value is lawful. -/
theorem lawful_of_ofJson {j : Json} {s : Schema} (read : ofJson j = .ok s) :
    Lawful (fun _ => True) s :=
  (readsLawful (fun _ _ _ _ => trivial) trivial).schema read

theorem lawful_of_unrepeated {j : Json} {s : Schema} (unrepeated : j.Unrepeated)
    (read : ofJson j = .ok s) : Lawful Unrepeated s :=
  (readsLawful (fun _ => Unrepeated.children) unrepeated).schema read

/-! Writing. -/

theorem tableToJson_eq (t : Table Schema) : .object (tableToJson t) = ofTable toJson t := by
  have entries : tableToJson t = t.map fun entry => (entry.1, toJson entry.2) := by
    induction t with
    | nil => rfl
    | cons entry rest ih => rw [tableToJson, ih, List.map_cons]
  rw [entries]
  rfl

theorem listToJson_eq (members : List Schema) : listToJson members = members.map toJson := by
  induction members with
  | nil => rfl
  | cons m rest ih => rw [listToJson, ih, List.map_cons]

/-- The fields that are written, in their order. -/
def written (s : Schema) : Table Json :=
  optionalField "$ref" (s.ref.map .string) ++
  optionalField "type" (s.type.map .string) ++
  optionalField "title" (s.title.map .string) ++
  optionalField "description" (s.description.map .string) ++
  nonEmptyField "properties" s.properties (ofTable toJson s.properties) ++
  nonEmptyField "required" s.required (ofTexts s.required) ++
  nonEmptyField "allOf" s.allOf (.array (s.allOf.map toJson)) ++
  nonEmptyField "oneOf" s.oneOf (.array (s.oneOf.map toJson)) ++
  optionalField "items" (s.items.map toJson) ++
  optionalField "maxLength" (s.maxLength.map nat) ++
  nonEmptyField "enum" s.enum (.array s.enum) ++
  optionalField "pattern" (s.pattern.map .string) ++
  optionalField "x-namespace" (s.xNamespace.map .string) ++
  optionalField "x-table-name" (s.tableName.map .string) ++
  optionalField "x-plural" (s.plural.map .string)

theorem toJson_eq (s : Schema) : s.toJson = .object s.written := by
  obtain ⟨ref, type, title, description, properties, required, allOf, oneOf, items, maxLength, enum,
    pattern, xNamespace, tableName, plural⟩ := s
  have one : optionToJson items = items.map toJson := by cases items <;> rfl
  rw [toJson, tableToJson_eq, listToJson_eq, listToJson_eq, one]
  rfl

theorem keys_written (s : Schema) : (Table.keys s.written).Sublist fieldNames := by
  simp only [written, Table.keys_append]
  exact ((((((((((((((keys_optionalField _ _).append (keys_optionalField _ _)).append
    (keys_optionalField _ _)).append (keys_optionalField _ _)).append
    (keys_nonEmptyField _ _ _)).append (keys_nonEmptyField _ _ _)).append
    (keys_nonEmptyField _ _ _)).append (keys_nonEmptyField _ _ _)).append
    (keys_optionalField _ _)).append (keys_optionalField _ _)).append
    (keys_nonEmptyField _ _ _)).append (keys_optionalField _ _)).append
    (keys_optionalField _ _)).append (keys_optionalField _ _)).append (keys_optionalField _ _)

theorem readFrom_written {s : Schema} (unique : (Table.keys s.properties).Nodup)
    (maxLength : ∀ n ∈ s.maxLength, n < Decimal.twoTo 32)
    (properties : ∀ entry ∈ s.properties, ofJson entry.2.toJson = .ok entry.2)
    (allOf : ∀ m ∈ s.allOf, ofJson m.toJson = .ok m)
    (oneOf : ∀ m ∈ s.oneOf, ofJson m.toJson = .ok m)
    (items : ∀ m ∈ s.items, ofJson m.toJson = .ok m) : ReadFrom ⟨s.written⟩ s := by
  have table := toTable_ofTable unique properties
  have length := elim_orNull (fun n member => toNatBelow_nat (maxLength n member)) nofun
  have item := elim_orNull items fun m => by simp [toJson_eq]
  have values : toList .ok (.array s.enum) = .ok s.enum := by
    have each : toList .ok (.array (s.enum.map id)) = .ok s.enum := toList_array fun _ _ => rfl
    rwa [List.map_id] at each
  constructor
  all_goals simp [written, Table.get?_append, table, length, item, values, elim_nonEmpty,
    toList_array allOf, toList_array oneOf]

/-- A lawful schema reads back as it was written. -/
theorem ofJson_toJson {s : Schema} (h : Lawful holds s) : ofJson s.toJson = .ok s := by
  induction h with
  | @mk s unique _ _ _ _ maxLength _ properties allOf oneOf items =>
    rw [toJson_eq]
    have isRecord := Record.ofJson_object (keys_written s) (by decide)
    exact ofJson_eq_ok.mpr ⟨_, isRecord,
      readFrom_written unique maxLength properties allOf oneOf items⟩

theorem unrepeated_toJson {s : Schema} (h : Lawful Unrepeated s) : s.toJson.Unrepeated := by
  induction h with
  | @mk s unique _ _ _ _ _ enum properties allOf oneOf items =>
    have table := unrepeated_ofTable unique properties
    have values : (Json.array s.enum).Unrepeated := .array enum
    rw [toJson_eq]
    refine .object ((keys_written s).nodup (by decide)) ?_
    simp only [written, List.forall_mem_append, forall_optionalField, forall_nonEmptyField]
    simpa [table, values, unrepeated_array allOf, unrepeated_array oneOf, unrepeated_ofTexts,
      Unrepeated.string, unrepeated_nat] using items

end Schema

/-! Parts of path items. -/

def Parameter.written (p : Parameter) : Table Json :=
  optionalField "$ref" (p.ref.map .string) ++
  [("name", .string p.name), ("in", .string p.location), ("required", .bool p.required)]

theorem Parameter.toJson_eq (p : Parameter) : p.toJson = .object p.written := rfl

theorem Parameter.keys_written (p : Parameter) :
    (Table.keys p.written).Sublist ["$ref", "name", "in", "required"] := by
  rw [written, Table.keys_append]
  exact (keys_optionalField _ _).append (List.Sublist.refl ["name", "in", "required"])

theorem Parameter.ofJson_toJson (p : Parameter) : Parameter.ofJson p.toJson = .ok p := by
  rw [toJson_eq, ofJson, Record.ofJson_object p.keys_written (by decide), ok_bind]
  simp [written, Table.get?_append, Table.get?_cons, ok_bind]

theorem Parameter.unrepeated_toJson (p : Parameter) : p.toJson.Unrepeated := by
  refine .object (p.keys_written.nodup (by decide)) ?_
  simp only [List.forall_mem_append, forall_optionalField]
  simp [Unrepeated.string, Unrepeated.bool]

theorem Server.unrepeated_toJson (s : Server) : s.toJson.Unrepeated := by
  have microservice (name : String) : (Json.object [("name", .string name)]).Unrepeated :=
    .object (by simp) (by simp [Unrepeated.string])
  refine .object (s.keys_written.nodup (by decide)) ?_
  simp only [List.forall_mem_append, forall_optionalField]
  simp [Unrepeated.string, microservice]

namespace PathItem

/-- The fields that are written before the other entries. -/
def written (p : PathItem) : Table Json :=
  optionalField "x-namespace" (p.xNamespace.map .string) ++
  nonEmptyField "parameters" p.parameters (.array (p.parameters.map Parameter.toJson)) ++
  nonEmptyField "servers" p.servers (Server.listToJson p.servers)

theorem toJson_eq (p : PathItem) : p.toJson = .object (p.written ++ p.entries) := rfl

theorem keys_written (p : PathItem) : (Table.keys p.written).Sublist fieldNames := by
  simp only [written, Table.keys_append]
  exact ((keys_optionalField _ _).append (keys_nonEmptyField _ _ _)).append
    (keys_nonEmptyField _ _ _)

theorem isField_of_written {p : PathItem} {entry : String × Json} (member : entry ∈ p.written) :
    entry.1 ∈ fieldNames :=
  p.keys_written.subset (List.mem_map_of_mem member)

theorem apart_of_ofJson {j : Json} {p : PathItem} (read : ofJson j = .ok p) :
    ∀ entry ∈ p.entries, entry.1 ∉ fieldNames := by
  obtain ⟨fields, r, _, _, _, _, _, areEntries⟩ := ofJson_eq_ok.mp read
  rw [areEntries]
  exact fun entry member => of_decide_eq_true (List.mem_filter.mp member).2

/-- A path item reads back as it was written, if its entries are told apart from its fields. -/
theorem ofJson_toJson {p : PathItem} (apart : ∀ entry ∈ p.entries, entry.1 ∉ fieldNames) :
    ofJson p.toJson = .ok p := by
  have named : (p.written ++ p.entries).filter (fun entry => entry.1 ∈ fieldNames) =
      p.written.filter fun entry => entry.1 ∈ fieldNames := by
    rw [List.filter_append, List.append_right_eq_self, List.filter_eq_nil_iff]
    exact fun entry member => by simpa using apart entry member
  have kept : (p.written ++ p.entries).filter (fun entry => entry.1 ∉ fieldNames) = p.entries := by
    rw [List.filter_append, List.filter_eq_nil_iff.mpr, List.nil_append, List.filter_eq_self.mpr]
    · exact fun entry member => decide_eq_true (apart entry member)
    · exact fun entry member => by simpa using isField_of_written member
  have isRecord : Record.ofFields fieldNames (p.written ++ p.entries) = .ok ⟨p.written⟩ :=
    (Record.ofFields_congr named).trans (Record.ofFields_eq p.keys_written (by decide))
  have parameters : Json.toList Parameter.ofJson (.array (p.parameters.map Parameter.toJson)) =
      .ok p.parameters := toList_array fun parameter _ => parameter.ofJson_toJson
  have servers : Json.toList Server.ofJson (Server.listToJson p.servers) = .ok p.servers :=
    toList_array fun server _ => server.ofJson_toJson
  refine ofJson_eq_ok.mpr ⟨_, _, rfl, isRecord, ?_, ?_, ?_, kept.symm⟩
  all_goals simp [written, Table.get?_append, elim_nonEmpty, parameters, servers]

theorem unrepeated_toJson {p : PathItem} (apart : ∀ entry ∈ p.entries, entry.1 ∉ fieldNames)
    (entries : (Json.object p.entries).Unrepeated) : p.toJson.Unrepeated := by
  have parameters : (Json.array (p.parameters.map Parameter.toJson)).Unrepeated :=
    unrepeated_array fun parameter _ => parameter.unrepeated_toJson
  have servers : (Server.listToJson p.servers).Unrepeated :=
    unrepeated_array fun server _ => server.unrepeated_toJson
  cases entries with
  | object unique each =>
    rw [toJson_eq]
    refine .object ?_ ?_
    · rw [Table.keys_append, List.nodup_append]
      refine ⟨p.keys_written.nodup (by decide), unique, ?_⟩
      rintro key isField _ there rfl
      obtain ⟨entry, member, rfl⟩ := List.mem_map.mp there
      exact apart entry member (p.keys_written.subset isField)
    · simp only [written, List.forall_mem_append, forall_optionalField, forall_nonEmptyField]
      simpa [parameters, servers, Unrepeated.string] using fun k v => each (k, v)

theorem unrepeated_entries {j : Json} {p : PathItem} (unrepeated : j.Unrepeated)
    (read : ofJson j = .ok p) : (Json.object p.entries).Unrepeated := by
  obtain ⟨fields, r, rfl, _, _, _, _, areEntries⟩ := ofJson_eq_ok.mp read
  cases unrepeated with
  | object unique each =>
    rw [areEntries]
    refine .object ((List.filter_sublist.map Prod.fst).nodup unique) ?_
    exact fun entry member => each entry (List.mem_filter.mp member).1

end PathItem

/-- Every schema and every path item that can be read is read again from what it is written as, the
order of its lists and tables included, and no key is written twice unless one was read twice. -/
theorem typed_nodes_read_back (j : Json) :
    (∀ schema, Schema.ofJson j = .ok schema → Schema.ofJson schema.toJson = .ok schema ∧
      (j.Unrepeated → schema.toJson.Unrepeated)) ∧
    (∀ item, PathItem.ofJson j = .ok item → PathItem.ofJson item.toJson = .ok item ∧
      (j.Unrepeated → item.toJson.Unrepeated)) := by
  constructor
  · intro schema read
    refine ⟨Schema.ofJson_toJson (Schema.lawful_of_ofJson read), fun unrepeated => ?_⟩
    exact Schema.unrepeated_toJson (Schema.lawful_of_unrepeated unrepeated read)
  · intro item read
    have apart := PathItem.apart_of_ofJson read
    refine ⟨PathItem.ofJson_toJson apart, fun unrepeated => ?_⟩
    exact PathItem.unrepeated_toJson apart (PathItem.unrepeated_entries unrepeated read)

/-- A definition in which one property and the items of another are written as lists of fields. -/
def stockItem : Json := .object [
  ("x-plural", .string "stock"),
  ("x-unknown", .object [("ignored", .bool true)]),
  ("properties", .object [
    ("tags", .object [("type", .string "array"),
      ("items", .array [.string "#/components/schemas/Tag"])]),
    ("name", .array [.null, .string "string", .null, .null, .object [], .array [], .array [],
      .array [], .null, nat 80, .array [.string "s", .null]])]),
  ("oneOf", .array [.object [("allOf", .array [.object [("required", .array [])]])], .object []])]

/-- A path item with an operation and an extension around its fields. -/
def stockPath : Json := .object [
  ("get", .object [("x-cached", .null)]),
  ("servers", .array [.object [("url", .string "/"),
    ("x-microservice", .array [.string "stock"])]]),
  ("parameters", .array []),
  ("x-owner", .string "shop")]

/-- What is empty is not written, and reading back misses nothing. -/
theorem stock_reads_back :
    (∃ schema, Schema.ofJson stockItem = .ok schema ∧
      schema.toJson = .object [
        ("properties", .object [
          ("tags", .object [("type", .string "array"),
            ("items", .object [("$ref", .string "#/components/schemas/Tag")])]),
          ("name", .object [("type", .string "string"), ("maxLength", nat 80),
            ("enum", .array [.string "s", .null])])]),
        ("oneOf", .array [.object [("allOf", .array [.object []])], .object []]),
        ("x-plural", .string "stock")] ∧
      Schema.ofJson schema.toJson = .ok schema) ∧
    ∃ item, PathItem.ofJson stockPath = .ok item ∧
      item.toJson = .object [
        ("servers", .array [.object [("url", .string "/"),
          ("x-microservice", .object [("name", .string "stock")])]]),
        ("get", .object [("x-cached", .null)]),
        ("x-owner", .string "shop")] ∧
      PathItem.ofJson item.toJson = .ok item ∧ item.toJson.Unrepeated := by
  have schemaRun : (Schema.ofJson stockItem).map Schema.toJson = .ok _ := rfl
  have itemRun : (PathItem.ofJson stockPath).map PathItem.toJson = .ok _ := rfl
  obtain ⟨schema, isSchema, written⟩ := map_eq_ok.mp schemaRun
  obtain ⟨item, isItem, written'⟩ := map_eq_ok.mp itemRun
  have schemaBack := (typed_nodes_read_back stockItem).1 schema isSchema
  have itemBack := (typed_nodes_read_back stockPath).2 item isItem
  have unrepeated : stockPath.Unrepeated := unrepeated_settled stockPath
  exact ⟨⟨schema, isSchema, written, schemaBack.1⟩, item, isItem, written', itemBack.1,
    itemBack.2 unrepeated⟩

end ApiGraph
