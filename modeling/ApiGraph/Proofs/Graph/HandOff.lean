import ApiGraph.Compile
import ApiGraph.Proofs.FileTree.Written
import ApiGraph.Proofs.Graph.Parts

/-! The hand-off of a graph. A graph whose tables have no key twice, and whose sorted tables are
sorted, is read from its text as the same graph, with everything in the same order
(`ofText_text`); so is what was saved as JSON (`handOff`). Asking this of a graph (`Lawful`) leaves
none out: the lawful graphs are those that some JSON is read as (`Graph.lawful_iff_readable`), and
the text of no other graph reads back (`Graph.ofText_text_iff`). -/

namespace ApiGraph.Graph

open Json

/-- Tables without repeated keys, sorted where their order is that of the keys, and numbers that fit
their words. -/
structure Lawful (g : Graph) : Prop where
  entities : g.entities.keys.Nodup
  entity : ∀ entry ∈ g.entities, entry.2.Lawful
  joinTables : g.joinTables.keys.Nodup
  joinTable : ∀ entry ∈ g.joinTables, entry.2.Lawful
  endpoints : g.endpoints.keys.Nodup
  endpoint : ∀ entry ∈ g.endpoints, entry.2.Lawful
  namespaces : Table.Sorted g.namespaces
  options : g.options.Lawful

instance (g : Graph) : Decidable g.Lawful :=
  decidable_of_iff (g.entities.keys.Nodup ∧ (∀ entry ∈ g.entities, entry.2.Lawful) ∧
      g.joinTables.keys.Nodup ∧ (∀ entry ∈ g.joinTables, entry.2.Lawful) ∧
      g.endpoints.keys.Nodup ∧ (∀ entry ∈ g.endpoints, entry.2.Lawful) ∧
      g.namespaces.keys.Pairwise (· < ·) ∧ g.options.Lawful)
    ⟨fun ⟨a, b, c, d, e, f, n, o⟩ => ⟨a, b, c, d, e, f, n, o⟩,
     fun ⟨a, b, c, d, e, f, n, o⟩ => ⟨a, b, c, d, e, f, n, o⟩⟩

variable {g : Graph}

theorem ofJson_toJson (h : g.Lawful) : Graph.ofJson g.toJson = .ok g := by
  have entities : toTable Entity.ofJson (ofTable Entity.toJson g.entities) = .ok g.entities :=
    toTable_ofTable h.entities fun entry member => Entity.ofJson_toJson (h.entity entry member)
  have relationships : toList RelationshipEntry.ofJson
      (.array (g.relationships.map RelationshipEntry.toJson)) = .ok g.relationships :=
    toList_array fun entry _ => entry.ofJson_toJson
  have joinTables : toTable JoinTable.ofJson (ofTable JoinTable.toJson g.joinTables) =
      .ok g.joinTables :=
    toTable_ofTable h.joinTables fun entry member =>
      JoinTable.ofJson_toJson (h.joinTable entry member)
  have endpoints : toTable Endpoint.ofJson (ofTable Endpoint.toJson g.endpoints) =
      .ok g.endpoints :=
    toTable_ofTable h.endpoints fun entry member => Endpoint.ofJson_toJson (h.endpoint entry member)
  have namespaces : toSortedTable Namespace.ofJson (ofTable Namespace.toJson g.namespaces) =
      .ok g.namespaces :=
    toSortedTable_ofTable h.namespaces fun entry _ => entry.2.ofJson_toJson
  have servers : toList Server.ofJson (Server.listToJson g.servers) = .ok g.servers :=
    toList_array fun s _ => s.ofJson_toJson
  have options := Options.ofJson_toJson h.options
  rw [toJson, ofJson, Record.ofJson_object _ (by decide), ok_bind]
  · simp [Table.get?_cons, ok_bind, entities, relationships, joinTables, endpoints, namespaces,
      servers, options]
  · exact List.Sublist.refl _

/-- Six containers stand around what is innermost: those of the graph, of its entities, of one
entity, of its columns, of one column and of the values of an enumeration. -/
theorem plain (h : g.Lawful) (depth : Nat) : Plain (depth + 6) g.toJson := by
  have entities : Plain (depth + 5) (ofTable Entity.toJson g.entities) :=
    plain_ofTable fun entry member => Entity.plain (h.entity entry member) depth
  have relationships : Plain (depth + 5) (.array (g.relationships.map RelationshipEntry.toJson)) :=
    plain_array fun entry _ => entry.plain (depth + 3)
  have joinTables : Plain (depth + 5) (ofTable JoinTable.toJson g.joinTables) :=
    plain_ofTable fun entry member => JoinTable.plain (h.joinTable entry member) depth
  have endpoints : Plain (depth + 5) (ofTable Endpoint.toJson g.endpoints) :=
    plain_ofTable fun entry member => Endpoint.plain (h.endpoint entry member) depth
  have namespaces : Plain (depth + 5) (ofTable Namespace.toJson g.namespaces) :=
    plain_ofTable fun entry _ => entry.2.plain (depth + 2)
  have servers : Plain (depth + 5) (Server.listToJson g.servers) :=
    plain_array fun s _ => s.plain (depth + 2)
  have options : Plain (depth + 5) g.options.toJson := g.options.plain (depth + 3)
  refine PlainFields.object ?_
  simpa using ⟨entities, relationships, joinTables, endpoints, namespaces, servers, options⟩

theorem ofText_of_entries {text : String} (h : g.Lawful)
    (read : entriesOfText? text = some g.toJson) : ofText text = .ok g := by
  rw [ofText, read]
  exact ofJson_toJson h

/-- The text of a graph is read as the graph, also with a line break at its end. -/
theorem ofText_text (h : g.Lawful) : ofText g.text = .ok g ∧ ofText (g.text ++ "\n") = .ok g := by
  have texts := (plain h 121).entriesOfText?
  exact ⟨ofText_of_entries h texts.1, ofText_of_entries h texts.2⟩

/-- The text of a graph, and the JSON file that a graph is saved to, are read as the graph. -/
theorem handOff (lawful : g.Lawful) : ofText g.text = .ok g ∧
    ∀ {files written : FileTree} {path : Path}, Format.ofPath path = .ok .json →
      saveGraph files path g = .ok written →
      ∃ text, written.read path = .ok text ∧ ofText text = .ok g := by
  obtain ⟨alone, ended⟩ := ofText_text lawful
  refine ⟨alone, ?_⟩
  intro files written path isJson saved
  obtain ⟨format, found, wrote⟩ := bind_eq_ok.mp (mapError_eq_ok.mp saved)
  obtain rfl : Format.json = format := Except.ok.inj (isJson.symm.trans found)
  exact ⟨_, FileTree.read_of_write (mapError_eq_ok.mp wrote), ended⟩

/-- A graph in which nearly every field that may be left out is there, with texts that are
escaped. -/
def clinic : Graph where
  entities := [
    ("Pet", { name := "Pet", resource := "Pet \"I\"", nameSpace := "clinic", tableName := "pets"
              primaryKey := "id", description := some "first\nsecond\tline"
              columns := [("a\\b", { type := .string, nullable := true, maxLength := some 36
                                     foreignKey := some "clinic.owners.id"
                                     description := some "\x01 é 😀"
                                     enumValues := some ["", "\x0c", "/"]
                                     pattern := some "^\\d+$" }),
                          ("age", { type := .integer, nullable := false })]
              relationships := [("owner", ⟨"Owner", .manyToOne, some "pets", false, none⟩)] }),
    ("Owner", { name := "Owner", resource := "Owner", nameSpace := "clinic", tableName := "owners"
                primaryKey := "id" })]
  relationships := [⟨"Pet", "owner", ⟨"Owner", .manyToOne, some "pets", false, none⟩⟩]
  joinTables := [("pettag", ⟨"pettag", "clinic", ("Pet", "Tag"), []⟩)]
  endpoints := [("/pets", { path := "/pets", nameSpace := "clinic", microservice := some "vets"
                            methods := [(.get, { supported := true
                                                 response := some ⟨200, some "Pet"⟩
                                                 queryParams := ["limit"] }),
                                        (.put, { request := some "Pet" })] })]
  namespaces := [("clinic", { entities := ["Pet", "Owner"], relationships := ["Pet.owner"]
                              joinTables := ["pettag"], endpoints := ["/pets"] })]
  servers := [{ url := "https://a", description := some "main", microservice := some "vets" }]
  microservices := ["vets"]
  options := { tableNames := [("A", "as"), ("B", "bs")] }

/-- The clinic is read back from its text and from its file, with all that had to be escaped. -/
theorem clinic_handOff : clinic.Lawful ∧ ofText clinic.text = .ok clinic ∧
    ∃ written text, saveGraph {} ⟨"graph.JSON"⟩ clinic = .ok written ∧
      written.read ⟨"graph.JSON"⟩ = .ok text ∧ ofText text = .ok clinic := by
  have lawful : clinic.Lawful := by decide +kernel
  have isJson : Format.ofPath ⟨"graph.JSON"⟩ = .ok .json := by decide +kernel
  obtain ⟨alone, files⟩ := handOff lawful
  have saves : (saveGraph {} ⟨"graph.JSON"⟩ clinic).toOption.map (·.entries.length) = some 1 := by
    decide +kernel
  obtain ⟨written, saved, _⟩ := exists_ok_of_map saves
  obtain ⟨text, read, same⟩ := files isJson saved
  exact ⟨lawful, alone, written, text, saved, read, same⟩

end ApiGraph.Graph
