import ApiGraph.Build.State
import ApiGraph.Model.Evidence

/-!
Links: references from one definition to another. A link says where in its source it was found,
and from this follow its name, its cardinality, the keys it needs and the relationship it adds.

| cardinality  | key on               | key column           |
|--------------|----------------------|----------------------|
| to one       | source               | label of the target  |
| to many      | target               | label of the source  |
| one to one   | the first by name    | label of the second  |
| one to many  | target               | label of the source  |
| many to one  | source               | label of the target  |
| many to many | join table           | one key for a side   |
-/

namespace ApiGraph.Build

/-- Where in a definition a reference was found. -/
inductive Site where
  /-- The definition is an array of references. -/
  | definition
  | property (name : String)
  /-- An alternative within a property, or of the definition itself. -/
  | alternative (within : Option String)
deriving DecidableEq, Repr

namespace Site

/-- The property on which the reference was found. -/
def origin : Site → Option String
  | .definition => none
  | .property name => some name
  | .alternative within => within

/-- How the place is named in an error. -/
def owner (source : String) (site : Site) : String :=
  match site.origin with
  | some name => source ++ "." ++ name
  | none => source

/-- What the names that stand for alternatives begin with. -/
def lead (source : String) (within : Option String) : String :=
  match within with
  | some name => Naming.columnIdent name
  | none => Naming.flat source

/-- The name of the relationship for a reference found here. -/
def linkName (source : String) (site : Site) (target : String) (forward : Multiplicity) :
    String :=
  match site with
  | .definition => Naming.flat target
  | .property name => Naming.columnIdent name
  | .alternative within =>
    lead source within ++ (if forward.isMany then "_array_" else "_") ++ Naming.flat target

end Site

/-- A reference in a definition. -/
structure Mention where
  source : String
  site : Site
  ref : String
  forward : Multiplicity
deriving DecidableEq, Repr

/-- A reference from one definition to another. -/
structure Link where
  source : String
  site : Site
  target : String
  targetSchema : Schema
  forward : Multiplicity

/-- The link of a reference, if it names a definition. -/
def Mention.link (source : Source) (m : Mention) : Except Fault Link := do
  let (target, targetSchema) ← source.definition (m.site.owner m.source) m.ref
  return ⟨m.source, m.site, target, targetSchema, m.forward⟩

namespace Link

def name (l : Link) : String := l.site.linkName l.source l.target l.forward

def cardinality (l : Link) : Cardinality :=
  inferCardinality l.source l.forward l.target l.targetSchema l.site.origin

/-- Many-to-one references of a plain property add no relationship: the one-to-many relationship
of the target covers them. -/
def addsRelationship (l : Link) : Bool :=
  l.cardinality != .manyToOne ||
    match l.site with
    | .alternative _ => true
    | _ => false

/-- What placing a link brings about. -/
structure Placement where
  keys : List PendingKey
  joinTable : Option JoinTable := none
  backReference : Option String := none

/-- A key column on an entity that points at another one. -/
def keyOn (owner : String) (target : Entity) (name : String) : PendingKey :=
  ⟨.entity owner, target.keyColumn, name⟩

/-- The keys, join table and back reference of a link between two entities. -/
def placement (l : Link) (source target : Entity) : Except Fault Placement :=
  match l.cardinality with
  | .toOne | .manyToOne => .ok { keys := [keyOn l.source target l.target] }
  | .toMany => .ok { keys := [keyOn l.target source l.source] }
  | .oneToMany =>
    .ok { keys := [keyOn l.target source l.source], backReference := some source.label }
  | .oneToOne =>
    let (first, second) := sortedPair l.source l.target
    let referenced := if second = l.source then source else target
    .ok { keys := [keyOn first referenced second], backReference := some source.label }
  | .manyToMany =>
    if source.nameSpace = target.nameSpace then
      let name := JoinTable.nameFor source.label target.label
      .ok {
        keys := [⟨.joinTable name, source.keyColumn, l.source⟩,
          ⟨.joinTable name, target.keyColumn, l.target⟩]
        joinTable := some
          { name, nameSpace := source.nameSpace, entities := sortedPair l.source l.target } }
    else
      .error (.manyToManyAcross l.source source.nameSpace l.target target.nameSpace)

/-- The relationship that a link adds to its source. An array definition is referred back to by its
own name. -/
def relationship (l : Link) (p : Placement) : Relationship where
  target := l.target
  cardinality := l.cardinality
  backReference := if l.site = .definition then some (Naming.flat l.source) else p.backReference
  usesList := l.forward.isMany
  joinTable := p.joinTable.map (·.name)

/-- A join table that is there already stays as it is. -/
def putJoinTable (tables : Table JoinTable) : Option JoinTable → Table JoinTable
  | some t => tables.insertNew t.name t
  | none => tables

/-- Records the keys of a link, and adds its relationship to the source. -/
def place (l : Link) (s : State) : Except Fault State := do
  let p ← l.placement (← s.entity l.source) (← s.entity l.target)
  let s := p.keys.foldl State.deferKey s
  let s := { s with joinTables := putJoinTable s.joinTables p.joinTable }
  if l.addsRelationship then s.modifyEntity l.source (·.addRelationship l.name (l.relationship p))
  else return s

end Link

end ApiGraph.Build
