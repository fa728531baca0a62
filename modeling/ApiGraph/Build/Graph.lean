import ApiGraph.Build.Columns
import ApiGraph.Build.Keys
import ApiGraph.Build.Links
import ApiGraph.Endpoint.Collect
import ApiGraph.Graph.Basic

/-!
Building the model graph of a description. Every entity and every column is there before the first
link is placed, and every link before the first key is put in place. Any failure ends the build.
-/

namespace ApiGraph.Build

/-- What the version of a supported description begins with. -/
def supportedVersion : List Char := ['3']

def checkVersion (d : Description) : Except Fault Unit :=
  match d.version? with
  | none => .error (.unsupportedShape "openapi" .versionMissing)
  | some version =>
    if Text.startsWith supportedVersion version.toList then .ok ()
    else .error (.unsupportedShape "openapi" (.versionUnsupported version))

/-- All entities and join tables, with their columns, relationships and keys. -/
def tables (source : Source) (s : State) : Except Fault State := do
  let s ← createEntities source s
  let s ← includeMembers source s
  let s ← expandAlternatives source s
  let s ← placeMentions source s
  bindKeys s

def graph (files : FileTree) (d : Description) (options : Options) : Except Fault Graph := do
  checkVersion d
  let source ← Source.of d options
  let s ← tables source { resolver := Resolver.fresh files }
  let servers ← d.servers
  let endpoints ← Endpoint.collect d servers s.entities options
  let microservices ← Endpoint.microservices d servers
  let namespaces ← Namespace.assemble s.entities s.joinTables endpoints
  return {
    entities := s.entities
    relationships := Graph.relationshipsOf s.entities
    joinTables := s.joinTables
    endpoints, namespaces, servers, microservices, options }

end ApiGraph.Build
