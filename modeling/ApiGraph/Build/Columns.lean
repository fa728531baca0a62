import ApiGraph.Build.State

/-!
Entities and the columns that come from primitive properties: first those of each definition
itself, then those of the members of its `allOf`, one level deep. Definitions and properties with
a shape that cannot be compiled are refused here.
-/

namespace ApiGraph.Build

/-- What is wrong with the shape of a definition. -/
def definitionProblem? (schema : Schema) : Option ShapeProblem :=
  if schema.isAlias then some .definitionIsReference
  else
    match schema.primitive with
    | some primitive => some (.definitionIsPrimitive primitive.name)
    | none =>
      if schema.isArray then
        if schema.itemsRef.isNone then some .itemsNotReference else none
      else if schema.hasBody then none
      else some .definitionWithoutBody

/-- What is wrong with the items of an array property. -/
def itemsProblem? : Option Schema → Option ShapeProblem
  | none => some .itemsNotReference
  | some items =>
    if items.isAlias then none
    else if items.isArray then some .nestedArray
    else if items.primitive.isSome then some .arrayOfPrimitives
    else some .itemsNotReference

/-- What is wrong with the shape of a property. -/
def propertyProblem? (property : Schema) : Option ShapeProblem :=
  if property.primitive.isSome || property.isAlias || !property.oneOf.isEmpty then none
  else if property.isArray then itemsProblem? property.items
  else if !property.allOf.isEmpty then some .inlineAllOf
  else if property.isAnonymousObject then some .anonymousObject
  else some .untyped

def refuse (owner : String) : Option ShapeProblem → Except Fault Unit
  | some problem => .error (.unsupportedShape owner problem)
  | none => .ok ()

def checkProperties (owner : String) : List (String × Schema) → Except Fault Unit
  | [] => .ok ()
  | (name, property) :: rest => do
    refuse (owner ++ "." ++ name) (propertyProblem? property)
    checkProperties owner rest

/-- Adds a column for every primitive property. A property is required if one of the given schemas
says so. -/
def addScalarColumns (e : Entity) (requiredBy : List Schema) (properties : List (String × Schema)) :
    Entity :=
  properties.foldl (fun e (name, property) =>
    match property.primitive with
    | some primitive =>
      let required := requiredBy.any (·.isRequired name)
      e.addColumn (Naming.columnIdent name) (.ofSchema primitive property !required)
    | none => e) e

/-- Makes the entity of a definition, with its own columns. -/
def createEntity (source : Source) (s : State) (definition : String × Schema) :
    Except Fault State := do
  let (name, schema) := definition
  refuse name (definitionProblem? schema)
  checkProperties name schema.properties
  let e := Entity.ofDefinition name schema source.options
  return s.putEntity name (addScalarColumns e [schema] schema.properties)

def createEntities (source : Source) (s : State) : Except Fault State :=
  source.definitions.foldlM (createEntity source) s

/-- Adds the columns of one `allOf` member. A member that is a reference contributes the properties
of its target. -/
def includeMember (source : Source) (name : String) (schema : Schema) (s : State)
    (member : Schema) : Except Fault State := do
  let (member, s) ←
    match member.ref with
    | some ref => do
      let ((_, target), s) ← s.resolveSchema source ref
      pure (target, s)
    | none => pure (member, s)
  s.modifyEntity name fun e => addScalarColumns e [schema, member] member.properties

def includeMembers (source : Source) (s : State) : Except Fault State :=
  source.definitions.foldlM
    (fun s (name, schema) => schema.allOf.foldlM (includeMember source name schema) s) s

end ApiGraph.Build
