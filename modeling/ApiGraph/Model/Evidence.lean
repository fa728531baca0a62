import ApiGraph.Model.Relationship
import ApiGraph.OpenApi.Schema
import ApiGraph.Reference.Basic

/-!
Evidence for cardinality: whether a target holds references back to the source. The first property
of the target that refers to the source decides.
-/

namespace ApiGraph

/-- A property of the target that points back at the source. -/
structure BackReference where
  property : String
  multiplicity : Multiplicity
deriving DecidableEq, Repr

/-- How many of the source a property holds, if it refers to the source. -/
def evidenceIn (source : String) (property : Schema) : Option Multiplicity :=
  (property.references.find? fun (ref, _) => definitionName? ref == some source).map (·.2)

/-- The first property of the target that refers to the source. When an entity refers to itself,
the property on which the reference was found does not count. -/
def backReference? (source targetName : String) (target : Schema) (origin : Option String) :
    Option BackReference :=
  target.properties.findSome? fun (name, property) =>
    if source = targetName ∧ origin = some name then none
    else (evidenceIn source property).map (⟨name, ·⟩)

/-- The cardinality of a reference from the source, which holds `forward` targets. -/
def inferCardinality (source : String) (forward : Multiplicity) (targetName : String)
    (target : Schema) (origin : Option String) : Cardinality :=
  .ofEvidence forward ((backReference? source targetName target origin).map (·.multiplicity))

end ApiGraph
