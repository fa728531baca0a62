import ApiGraph.Proofs.Build.ForeignKeys
import ApiGraph.Proofs.Endpoint.Described
import ApiGraph.Proofs.Json.Fields

/-! Microservices. What a server list mentions is read off the document as it stands, a server or
its extension written as an object or as the list of its fields (`Server.named?`). A graph has
exactly the microservices that its document mentions, each where it is mentioned first, and every
endpoint has the first one that its own servers mention, or else the first one of the whole API
(`microservices_mentioned`). -/

namespace ApiGraph

namespace Server

def fieldNames : List String := ["url", "description", "x-microservice"]

/-- The name that a server gives its microservice. -/
def named? (j : Json) : Option String :=
  ((Record.value? fieldNames "x-microservice" j).bind (Record.value? ["name"] "name")).bind
    Json.string?

theorem value?_of_microserviceOfJson {j : Json} {name : String}
    (read : microserviceOfJson j = .ok name) :
    (Record.value? ["name"] "name" j).bind Json.string? = some name := by
  obtain ⟨r, isRecord, read⟩ := bind_eq_ok.mp read
  rw [Record.required, Record.get?_ofJson isRecord (by decide)] at read
  cases found : Record.value? ["name"] "name" j with
  | none =>
    rw [found] at read
    cases read
  | some value =>
    rw [found] at read
    cases value with
    | string s =>
      cases read
      rfl
    | _ => cases read

/-- A server that is read has the microservice that it names. -/
theorem microservice_of_ofJson {j : Json} {s : Server} (read : ofJson j = .ok s) :
    s.microservice = named? j := by
  obtain ⟨r, isRecord, read⟩ := bind_eq_ok.mp read
  obtain ⟨url, _, read⟩ := bind_eq_ok.mp read
  obtain ⟨description, _, read⟩ := bind_eq_ok.mp read
  obtain ⟨microservice, isNamed, read⟩ := bind_eq_ok.mp read
  obtain rfl := Except.ok.inj read
  rw [Record.orElse, Record.get?_ofJson isRecord (by decide)] at isNamed
  rw [named?, fieldNames]
  cases found : Record.value? ["url", "description", "x-microservice"] "x-microservice" j with
  | none =>
    rw [found] at isNamed
    exact (Except.ok.inj isNamed).symm
  | some extension =>
    rw [found] at isNamed
    rw [Option.bind_some]
    rcases Json.orNull_eq_ok isNamed with ⟨rfl, rfl⟩ | ⟨name, isName, rfl⟩
    · rfl
    · exact (value?_of_microserviceOfJson isName).symm

/-- The servers that an object lists, as they stand. -/
def nodes (holder : Json) : List Json := ((holder.get? "servers").bind Json.items?).getD []

/-- The microservices that an object mentions in its server list. -/
def mentions (holder : Json) : List String := (nodes holder).filterMap named?

theorem filterMap_of_toList {j : Json} {servers : List Server}
    (read : Json.toList ofJson j = .ok servers) :
    servers.filterMap (·.microservice) = (j.items?.getD []).filterMap named? := by
  cases j with
  | array items =>
    have same := map_of_forall₂ (forall₂_of_mapM read)
      fun _ _ isServer => (microservice_of_ofJson isServer).symm
    have named := congrArg (List.filterMap id) same.symm
    rwa [List.filterMap_map, List.filterMap_map] at named
  | _ => cases read

theorem microserviceName?_eq (servers : List Server) :
    microserviceName? servers = (servers.filterMap (·.microservice)).head? :=
  List.head?_filterMap.symm

end Server

theorem Description.mentions_of_servers {d : Description} {servers : List Server}
    (read : d.servers = .ok servers) :
    servers.filterMap (·.microservice) = Server.mentions d.document := by
  rw [Description.servers] at read
  rw [Server.mentions, Server.nodes]
  cases found : d.document.get? "servers" with
  | none =>
    rw [found] at read
    obtain rfl := Except.ok.inj read
    rfl
  | some j =>
    rw [found] at read
    exact Server.filterMap_of_toList (mapError_eq_ok.mp read)

theorem PathItem.mentions_of_ofJson {j : Json} {item : PathItem} (read : ofJson j = .ok item) :
    item.servers.filterMap (·.microservice) = Server.mentions j := by
  obtain ⟨fields, r, rfl, isRecord, _, _, areServers, _⟩ := ofJson_eq_ok.mp read
  rw [Record.orElse, Record.get?_ofFields isRecord, if_pos (by decide)] at areServers
  rw [Server.mentions, Server.nodes, Json.get?, Json.fields?, Option.bind_some]
  cases found : Table.get? fields "servers" with
  | none =>
    rw [found] at areServers
    rw [← Except.ok.inj areServers]
    rfl
  | some j =>
    rw [found] at areServers
    exact Server.filterMap_of_toList areServers

namespace Endpoint

/-- The path items of a document, as they stand. -/
def pathNodes (document : Json) : Table Json := ((document.get? "paths").bind Json.fields?).getD []

/-- The microservices that the server lists of a document mention, those of the whole API first. -/
def mentioned (document : Json) : List String :=
  Server.mentions document ++ (pathNodes document).flatMap fun entry => Server.mentions entry.2

theorem entries_eq_pathNodes {d : Description} {raw : Table Json}
    (read : Description.entries "paths" (d.document.get? "paths") = .ok raw) :
    raw = pathNodes d.document := by
  rw [pathNodes]
  cases found : d.document.get? "paths" with
  | none =>
    rw [found] at read
    exact (Except.ok.inj read).symm
  | some j =>
    rw [found] at read
    cases j with
    | object fields => exact (Except.ok.inj read).symm
    | _ => cases read

/-- The path items of a description are read from those of its document. -/
theorem forall₂_of_paths {d : Description} {paths : Table PathItem} (read : d.paths = .ok paths) :
    List.Forall₂ (fun entry item => item.1 = entry.1 ∧ PathItem.ofJson entry.2 = .ok item.2)
      (pathNodes d.document) paths := by
  obtain ⟨raw, isRaw, read⟩ := bind_eq_ok.mp read
  rw [Description.readEntries_eq_mapM] at read
  rw [← entries_eq_pathNodes isRaw]
  refine (forall₂_of_mapM read).imp fun entry item isEntry => ?_
  obtain ⟨same, isItem⟩ := Description.readEntry_eq_ok.mp isEntry
  exact ⟨same.symm, isItem⟩

/-- Every microservice that is mentioned is collected where it comes first. -/
theorem microservices_eq {d : Description} {servers : List Server} {names : List String}
    (served : d.servers = .ok servers) (serving : microservices d servers = .ok names) :
    names = (mentioned d.document).eraseDups := by
  obtain ⟨paths, read, serving⟩ := bind_eq_ok.mp serving
  obtain rfl := Except.ok.inj serving
  have items := map_of_forall₂ (forall₂_of_paths read)
    fun _ _ h => (PathItem.mentions_of_ofJson h.2).symm
  rw [eraseDups_eq_foldl, mentioned, List.foldl_append, List.flatMap_def, items,
    ← List.flatMap_def, List.foldl_flatMap, ← Description.mentions_of_servers served,
    List.foldl_cons, List.foldl_map]
  rfl

/-- The microservice of an endpoint, by what its path item and the whole API mention. -/
def microserviceOf (document node : Json) : Option String :=
  (Server.mentions node).head?.or (Server.mentions document).head?

theorem microservice_of_ofPath {d : Description} {servers : List Server} {entities : Table Entity}
    {options : Options} {path : String} {node : Json} {item : PathItem} {e : Endpoint}
    (served : d.servers = .ok servers) (isItem : PathItem.ofJson node = .ok item)
    (made : ofPath d.document servers entities options path item = .ok e) :
    e.microservice = microserviceOf d.document node := by
  obtain ⟨methods, _, made⟩ := bind_eq_ok.mp made
  obtain rfl := Except.ok.inj made
  rw [microserviceOf, ← PathItem.mentions_of_ofJson isItem,
    ← Description.mentions_of_servers served, ← Server.microserviceName?_eq,
    ← Server.microserviceName?_eq]
  cases Server.microserviceName? item.servers with
  | none => rfl
  | some _ => rfl

theorem microserviceOf_mem {document : Json} {entry : String × Json} {name : String}
    (member : entry ∈ pathNodes document) (found : microserviceOf document entry.2 = some name) :
    name ∈ mentioned document := by
  rw [mentioned, List.mem_append, List.mem_flatMap]
  rcases Option.or_eq_some_iff.mp found with own | ⟨_, top⟩
  · exact Or.inr ⟨entry, member, List.mem_of_mem_head? own⟩
  · exact Or.inl (List.mem_of_mem_head? top)

end Endpoint

namespace Build

open Endpoint (mentioned microserviceOf pathNodes)

/-- The microservices of a graph are those that a document mentions. -/
structure Deploys (document : Json) (g : Graph) : Prop where
  inOrder : g.microservices = (mentioned document).eraseDups
  once : g.microservices.Nodup
  complete : ∀ name, name ∈ g.microservices ↔ name ∈ mentioned document
  endpoints : List.Forall₂ (fun entry endpoint => endpoint.1 = entry.1 ∧
    endpoint.2.microservice = microserviceOf document entry.2) (pathNodes document) g.endpoints
  listed : ∀ endpoint ∈ g.endpoints, ∀ name, endpoint.2.microservice = some name →
    name ∈ g.microservices

theorem nodup_eraseDups (names : List String) : names.eraseDups.Nodup := by
  have unique := Table.keys_ofList_nodup (names.map (·, ()))
  rw [Table.keys_ofList, Table.keys, List.map_map] at unique
  simpa [Function.comp_def] using unique

/-- A graph has exactly the microservices that its document mentions, and each endpoint has the
first one that its own server list mentions, or else the first one of the whole API. -/
theorem microservices_mentioned {files : FileTree} {d : Description} {options : Options} {g : Graph}
    (built : graph files d options = .ok g) : Deploys d.document g := by
  obtain ⟨_, s, steps⟩ := steps_of_graph built
  have inOrder := Endpoint.microservices_eq steps.served steps.serving
  have complete : ∀ name, name ∈ g.microservices ↔ name ∈ mentioned d.document := by
    intro name
    rw [inOrder, List.mem_eraseDups]
  have endpoints : List.Forall₂ (fun entry endpoint => endpoint.1 = entry.1 ∧
      endpoint.2.microservice = microserviceOf d.document entry.2)
      (pathNodes d.document) g.endpoints := by
    obtain ⟨paths, read, made⟩ := bind_eq_ok.mp steps.collected
    refine (forall₂_trans (Endpoint.forall₂_of_paths read) (Endpoint.ofPaths_eq_ok made)).imp ?_
    rintro entry endpoint ⟨item, ⟨named, isItem⟩, same, made⟩
    exact ⟨same.trans named, Endpoint.microservice_of_ofPath steps.served isItem made⟩
  refine ⟨inOrder, inOrder ▸ nodup_eraseDups _, complete, endpoints, ?_⟩
  intro endpoint member name has
  have same := map_of_forall₂ endpoints fun _ _ h => h.2.symm
  have chosen := List.mem_map_of_mem (f := fun e => e.2.microservice) member
  rw [← same, has] at chosen
  obtain ⟨entry, there, found⟩ := List.mem_map.mp chosen
  exact (complete name).mpr (Endpoint.microserviceOf_mem there found)

/-- A server of a microservice. -/
def serverOf (name : String) : Json :=
  .object [("url", .string "http://localhost"),
    ("x-microservice", .object [("name", .string name)])]

/-- The whole API is served without a microservice first, and then by two. -/
def gateway : Description where
  document := .object [
    ("openapi", .string "3.0.0"),
    ("servers", .array [.object [("url", .string "http://gateway")], serverOf "core",
      .array [.string "http://audit", .null, .object [("name", .string "audit")]]]),
    ("paths", .object [
      ("/carts", .object [("servers", .array [serverOf "carts", serverOf "core"])]),
      ("/items", .object [("servers", .array [.object [("url", .string "http://items")]])]),
      ("/totals", .object [("servers", .array [serverOf "audit", serverOf "totals"])]),
      ("/health", .object [])])]

/-- A path has the first service that its own servers name, or else the first one of the
document. -/
theorem gateway_serves : ∃ g, graph {} gateway {} = .ok g ∧ Deploys gateway.document g ∧
    g.microservices = ["core", "audit", "carts", "totals"] ∧
    (g.endpoints.map fun e => (e.1, e.2.microservice)) = [("/carts", some "carts"),
      ("/items", some "core"), ("/totals", some "audit"), ("/health", some "core")] := by
  have run : (graph {} gateway {}).toOption.map (fun g =>
      (g.microservices, g.endpoints.map fun e => (e.1, e.2.microservice))) =
      some (["core", "audit", "carts", "totals"], [("/carts", some "carts"),
        ("/items", some "core"), ("/totals", some "audit"), ("/health", some "core")]) := by
    decide +kernel
  obtain ⟨g, built, shape⟩ := exists_ok_of_map run
  obtain ⟨names, endpoints⟩ := Prod.mk.inj shape
  exact ⟨g, built, microservices_mentioned built, names, endpoints⟩

end Build

end ApiGraph
