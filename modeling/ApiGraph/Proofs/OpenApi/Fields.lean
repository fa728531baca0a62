import ApiGraph.Proofs.Json.Fields
import ApiGraph.Proofs.OpenApi.Description

/-! What the fields of schemas and path items are read from. A schema is written as an object or as
the list of its fields, and `Schema.field?` finds the value of a field in both. The one pass from
the leaves up comes to the same as reading each field by itself (`Schema.ofJson_eq_ok`). The
reference of a schema is the string that stands for its first field (`field?_of_ref`), and a value
that is a reference is read as one (`ref_of_aliasTarget?`). The properties have one name each
(`keys_properties_nodup`), and the members are read from the values that `memberNodes` lists
(`exists_memberNode`). A path item is an object only, and keeps what is not one of its fields
(`PathItem.ofJson_eq_ok`). -/

namespace ApiGraph

namespace Schema

open Json (orNull toList toTable toEntries toText toNatBelow)

/-- The value that stands for a field. -/
def field? (key : String) : Json → Option Json
  | .object fields => Table.get? fields key
  | .array items => Table.get? (fieldNames.zip items) key
  | _ => none

/-! What a value is read as. -/

theorem raw_reading (j : Json) : (reading j).raw = j := by
  cases j <;> rfl

theorem list_reading (j : Json) : (reading j).list = toList ofJson j := by
  cases j with
  | array items =>
    have each : (readingItems items).mapM (·.schema) = items.mapM ofJson := by
      rw [readingItems_eq, List.mapM_map]
      rfl
    exact each
  | _ => rfl

theorem table_reading (j : Json) : (reading j).table = toTable ofJson j := by
  have entries (fields : List (String × Json)) :
      Reading.tableOf (readingFields fields) = toEntries ofJson fields := by
    induction fields with
    | nil => rfl
    | cons entry rest ih =>
      rw [readingFields, Reading.tableOf, toEntries, ih]
      rfl
  cases j with
  | object fields => exact congrArg (Except.map Table.ofList) (entries fields)
  | _ => rfl

theorem orElse_reading {γ : Type} {r : Record Json} {key : String} {default : γ}
    {held : Reading → Except Mismatch γ} {read : Json → Except Mismatch γ}
    (same : ∀ j, held (reading j) = read j) :
    (r.map reading).orElse key default held = r.orElse key default read := by
  simp only [Record.orElse_map, same]

/-- Every field of the schema is read from the record. -/
structure ReadFrom (r : Record Json) (s : Schema) : Prop where
  ref : r.orElse "$ref" none (orNull toText) = .ok s.ref
  type : r.orElse "type" none (orNull toText) = .ok s.type
  title : r.orElse "title" none (orNull toText) = .ok s.title
  description : r.orElse "description" none (orNull toText) = .ok s.description
  properties : r.orElse "properties" [] (toTable ofJson) = .ok s.properties
  required : r.orElse "required" [] (toList toText) = .ok s.required
  allOf : r.orElse "allOf" [] (toList ofJson) = .ok s.allOf
  oneOf : r.orElse "oneOf" [] (toList ofJson) = .ok s.oneOf
  items : r.orElse "items" none (orNull ofJson) = .ok s.items
  maxLength : r.orElse "maxLength" none (orNull (toNatBelow (Decimal.twoTo 32))) = .ok s.maxLength
  enum : r.orElse "enum" [] (toList .ok) = .ok s.enum
  pattern : r.orElse "pattern" none (orNull toText) = .ok s.pattern
  xNamespace : r.orElse "x-namespace" none (orNull toText) = .ok s.xNamespace
  tableName : r.orElse "x-table-name" none (orNull toText) = .ok s.tableName
  plural : r.orElse "x-plural" none (orNull toText) = .ok s.plural

theorem ofRecord_map_eq_ok {r : Record Json} {s : Schema} :
    ofRecord (r.map reading) = .ok s ↔ ReadFrom r s := by
  have value {γ : Type} {key : String} {default : γ} {read : Json → Except Mismatch γ} :
      (r.map reading).orElse key default (fun v => read v.raw) = r.orElse key default read :=
    orElse_reading fun j => congrArg read (raw_reading j)
  constructor
  · intro read
    obtain ⟨ref, isRef, read⟩ := bind_eq_ok.mp read
    obtain ⟨type, isType, read⟩ := bind_eq_ok.mp read
    obtain ⟨title, isTitle, read⟩ := bind_eq_ok.mp read
    obtain ⟨description, isDescription, read⟩ := bind_eq_ok.mp read
    obtain ⟨properties, areProperties, read⟩ := bind_eq_ok.mp read
    obtain ⟨required, areRequired, read⟩ := bind_eq_ok.mp read
    obtain ⟨allOf, areMembers, read⟩ := bind_eq_ok.mp read
    obtain ⟨oneOf, areAlternatives, read⟩ := bind_eq_ok.mp read
    obtain ⟨items, areItems, read⟩ := bind_eq_ok.mp read
    obtain ⟨maxLength, isLength, read⟩ := bind_eq_ok.mp read
    obtain ⟨enum, areValues, read⟩ := bind_eq_ok.mp read
    obtain ⟨pattern, isPattern, read⟩ := bind_eq_ok.mp read
    obtain ⟨xNamespace, isNamespace, read⟩ := bind_eq_ok.mp read
    obtain ⟨tableName, isTableName, read⟩ := bind_eq_ok.mp read
    obtain ⟨plural, isPlural, read⟩ := bind_eq_ok.mp read
    cases read
    exact {
      ref := value.symm.trans isRef
      type := value.symm.trans isType
      title := value.symm.trans isTitle
      description := value.symm.trans isDescription
      properties := (orElse_reading table_reading).symm.trans areProperties
      required := value.symm.trans areRequired
      allOf := (orElse_reading list_reading).symm.trans areMembers
      oneOf := (orElse_reading list_reading).symm.trans areAlternatives
      items := (orElse_reading fun j => by cases j <;> rfl).symm.trans areItems
      maxLength := value.symm.trans isLength
      enum := value.symm.trans areValues
      pattern := value.symm.trans isPattern
      xNamespace := value.symm.trans isNamespace
      tableName := value.symm.trans isTableName
      plural := value.symm.trans isPlural }
  · intro h
    obtain ⟨⟩ := s
    refine bind_eq_ok.mpr ⟨_, value.trans h.ref, ?_⟩
    refine bind_eq_ok.mpr ⟨_, value.trans h.type, ?_⟩
    refine bind_eq_ok.mpr ⟨_, value.trans h.title, ?_⟩
    refine bind_eq_ok.mpr ⟨_, value.trans h.description, ?_⟩
    refine bind_eq_ok.mpr ⟨_, (orElse_reading table_reading).trans h.properties, ?_⟩
    refine bind_eq_ok.mpr ⟨_, value.trans h.required, ?_⟩
    refine bind_eq_ok.mpr ⟨_, (orElse_reading list_reading).trans h.allOf, ?_⟩
    refine bind_eq_ok.mpr ⟨_, (orElse_reading list_reading).trans h.oneOf, ?_⟩
    refine bind_eq_ok.mpr ⟨_, (orElse_reading fun j => by cases j <;> rfl).trans h.items, ?_⟩
    refine bind_eq_ok.mpr ⟨_, value.trans h.maxLength, ?_⟩
    refine bind_eq_ok.mpr ⟨_, value.trans h.enum, ?_⟩
    refine bind_eq_ok.mpr ⟨_, value.trans h.pattern, ?_⟩
    refine bind_eq_ok.mpr ⟨_, value.trans h.xNamespace, ?_⟩
    refine bind_eq_ok.mpr ⟨_, value.trans h.tableName, ?_⟩
    exact bind_eq_ok.mpr ⟨_, value.trans h.plural, rfl⟩

/-- A schema is read from its record, each field by itself. -/
theorem ofJson_eq_ok {j : Json} {s : Schema} :
    ofJson j = .ok s ↔ ∃ r, Record.ofJson fieldNames j = .ok r ∧ ReadFrom r s := by
  have whole : ofJson j = ((Record.ofJson fieldNames j).map (Record.map reading)).bind ofRecord ∨
      ∃ fault fault', ofJson j = .error fault ∧ Record.ofJson fieldNames j = .error fault' := by
    cases j with
    | object fields =>
      left
      rw [Record.ofJson, ← Record.ofFields_map, ← readingFields_eq]
      rfl
    | array items =>
      left
      rw [Record.ofJson, ← Record.ofItems_map, ← readingItems_eq]
      rfl
    | _ => exact .inr ⟨_, _, rfl, rfl⟩
  rcases whole with whole | ⟨fault, fault', unread, noRecord⟩
  · rw [whole]
    cases Record.ofJson fieldNames j with
    | error fault => simp [Except.map, Except.bind]
    | ok r => simpa [Except.map, Except.bind] using ofRecord_map_eq_ok
  · simp [unread, noRecord]

theorem ReadFrom.keys_nodup {r : Record Json} {s : Schema} (read : ReadFrom r s) :
    (Table.keys s.properties).Nodup := by
  rcases Record.orElse_eq_ok read.properties with empty | ⟨j, _, isTable⟩
  · rw [empty]
    exact List.nodup_nil
  · exact Json.nodup_of_toTable isTable

/-- What stands for a field is the value that the field is read from. -/
theorem exists_fields {j : Json} {schema : Schema} (read : ofJson j = .ok schema) :
    ∃ r, ReadFrom r schema ∧ ∀ key ∈ fieldNames, r.fields.get? key = field? key j := by
  obtain ⟨r, isRecord, read⟩ := ofJson_eq_ok.mp read
  refine ⟨r, read, fun key isField => ?_⟩
  rw [Record.get?_ofJson isRecord isField]
  cases j <;> rfl

/-- The reference of a schema stands for its first field. -/
theorem field?_of_ref {j : Json} {schema : Schema} (read : ofJson j = .ok schema) {raw : String}
    (isRef : schema.ref = some raw) : field? refKey j = some (.string raw) := by
  obtain ⟨r, read, held⟩ := exists_fields read
  have text := read.ref
  rw [isRef, Record.orElse, held "$ref" (by decide)] at text
  cases found : field? refKey j with
  | none =>
    rw [show field? "$ref" j = none from found] at text
    cases text
  | some v =>
    rw [show field? "$ref" j = some v from found] at text
    cases v with
    | string s =>
      cases text
      rfl
    | _ => cases text

/-- A schema that is a reference is read as one. -/
theorem ref_of_aliasTarget? {node : Json} {schema : Schema} {raw : String}
    (read : ofJson node = .ok schema) (isAlias : aliasTarget? node = some raw) :
    schema.ref = some raw := by
  obtain ⟨r, read, held⟩ := exists_fields read
  have text := read.ref
  cases node with
  | object fields =>
    have found : field? "$ref" (.object fields) = some (.string raw) := by
      rw [Json.aliasTarget?_object, Option.bind_eq_some_iff] at isAlias
      obtain ⟨j, found, isText⟩ := isAlias
      cases j <;> cases isText
      exact found
    rw [Record.orElse, held "$ref" (by decide), found] at text
    exact (Except.ok.inj text).symm
  | _ => cases isAlias

theorem aliasTarget?_eq_none {node : Json} {schema : Schema} (read : ofJson node = .ok schema)
    (concrete : schema.ref = none) : aliasTarget? node = none := by
  cases isAlias : aliasTarget? node with
  | none => rfl
  | some raw =>
    rw [ref_of_aliasTarget? read isAlias] at concrete
    cases concrete

/-- The properties of a schema have one name each, however the schema is written. -/
theorem keys_properties_nodup {j : Json} {schema : Schema} (read : ofJson j = .ok schema) :
    (Table.keys schema.properties).Nodup := by
  obtain ⟨r, _, read⟩ := ofJson_eq_ok.mp read
  exact read.keys_nodup

/-- The values that the members of a schema are read from. -/
def memberNodes (j : Json) : List Json :=
  match field? "allOf" j with
  | some (.array nodes) => nodes
  | _ => []

theorem exists_memberNode {j : Json} {schema member : Schema} (read : ofJson j = .ok schema)
    (isMember : member ∈ schema.allOf) : ∃ node ∈ memberNodes j, ofJson node = .ok member := by
  obtain ⟨r, read, held⟩ := exists_fields read
  have list := read.allOf
  rw [Record.orElse, held "allOf" (by decide)] at list
  rw [memberNodes]
  cases found : field? "allOf" j with
  | none =>
    rw [found] at list
    rw [← Except.ok.inj list] at isMember
    cases isMember
  | some v =>
    rw [found] at list
    cases v with
    | array nodes => exact (mem_of_mapM list member).mp isMember
    | _ => cases list

end Schema

namespace PathItem

/-- A path item is read from its fields, and keeps the other entries as they are. -/
theorem ofJson_eq_ok {j : Json} {item : PathItem} : ofJson j = .ok item ↔
    ∃ fields r, j = .object fields ∧ Record.ofFields fieldNames fields = .ok r ∧
      r.orElse "x-namespace" none (Json.orNull Json.toText) = .ok item.xNamespace ∧
      r.orElse "parameters" [] (Json.toList Parameter.ofJson) = .ok item.parameters ∧
      r.orElse "servers" [] (Json.toList Server.ofJson) = .ok item.servers ∧
      item.entries = fields.filter fun entry => entry.1 ∉ fieldNames := by
  constructor
  · intro h
    cases j with
    | object fields =>
      obtain ⟨r, isRecord, h⟩ := bind_eq_ok.mp h
      obtain ⟨xNamespace, isNamespace, h⟩ := bind_eq_ok.mp h
      obtain ⟨parameters, areParameters, h⟩ := bind_eq_ok.mp h
      obtain ⟨servers, areServers, h⟩ := bind_eq_ok.mp h
      cases h
      exact ⟨fields, r, rfl, isRecord, isNamespace, areParameters, areServers, rfl⟩
    | _ => cases h
  · rintro ⟨fields, r, rfl, isRecord, isNamespace, areParameters, areServers, areEntries⟩
    rw [ofJson, isRecord, ok_bind, isNamespace, ok_bind, areParameters, ok_bind, areServers,
      ok_bind, ← areEntries]
    rfl

end PathItem

end ApiGraph
