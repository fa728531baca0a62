import ApiGraph.Model.Entity
import ApiGraph.Model.JoinTable
import ApiGraph.OpenApi.Description
import ApiGraph.Reference.Resolve

/-!
What a build works on: the description with its definitions, which stay as they are, and the
entities, join tables and keys made so far.
-/

namespace ApiGraph.Build

/-- The table that carries a key column. -/
inductive KeyOwner where
  | entity (name : String)
  | joinTable (name : String)
deriving DecidableEq, Repr

def KeyOwner.name : KeyOwner → String
  | .entity name => name
  | .joinTable name => name

/-- A foreign key to be put in place when every entity is there. -/
structure PendingKey where
  owner : KeyOwner
  column : String
  /-- The name of the entity that the key points at. -/
  target : String
deriving DecidableEq, Repr

/-- What a build reads and never changes. -/
structure Source where
  description : Description
  definitions : Table Schema
  options : Options

namespace Source

/-- Reads the definitions of a description. -/
def of (description : Description) (options : Options) : Except Fault Source := do
  return { description, definitions := ← description.definitions, options }

/-- The directory of the description's relative references. -/
def baseDir (s : Source) : Path := (s.description.path.bind Path.parent?).getD Path.here

def scope (s : Source) : Scope where
  document := s.description.document
  file := s.description.path
  baseDir := s.baseDir

/-- The definition that a local reference names. -/
def definition (s : Source) (owner ref : String) : Except Fault (String × Schema) :=
  match (definitionName? ref).bind fun name => (s.definitions.get? name).map (name, ·) with
  | some found => .ok found
  | none => .error (.unknownDefinition owner ref)

end Source

structure State where
  entities : Table Entity := []
  joinTables : Table JoinTable := []
  /-- Keys in the order in which they were found, none of them twice. -/
  pending : List PendingKey := []
  resolver : Resolver

namespace State

def entity (s : State) (name : String) : Except Fault Entity :=
  match s.entities.get? name with
  | some e => .ok e
  | none => .error (.unknownDefinition name name)

def putEntity (s : State) (name : String) (e : Entity) : State :=
  { s with entities := Table.insert s.entities name e }

/-- Changes an entity that is there. -/
def modifyEntity (s : State) (name : String) (change : Entity → Entity) : Except Fault State := do
  return s.putEntity name (change (← s.entity name))

/-- A key that is pending already is not recorded again. -/
def deferKey (s : State) (key : PendingKey) : State :=
  if key ∈ s.pending then s else { s with pending := s.pending ++ [key] }

/-- Follows any reference from the description, and reads what it leads to as a schema. -/
def resolveSchema (source : Source) (s : State) (ref : String) :
    Except Fault ((String × Schema) × State) := do
  let (result, resolver) := (Resolver.resolveText source.scope ref).run.run s.resolver
  let target ← result
  let schema ← (Schema.ofJson target.node).mapError (.malformed (.definition target.name))
  return ((target.name, schema), { s with resolver })

end State

end ApiGraph.Build
